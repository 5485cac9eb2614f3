import PagedIndex.Proofs.Running
import PagedIndex.Pager.Basic
import PagedIndex.Proofs.Subtree.Basic

/-!
# Reading

Those who only read a tree need little from a pager: that it goes on serving, and that whenever it hands
out a page, it is the right one. A `Service` is such a promise, and pages in memory as well as the pages of
an image keep it. It may be partial: a service says with which errors a call may be refused and what the pager
is then, and a service that allows for no error never refuses. `Reads` is what a reading computation does by
that promise, with one rule for each construct; what is proved with it holds behind every pager. In the other
direction, a service that is `Exact` hands out nothing but its pages, and `Yields` is what is known of the pages
once a computation has given an answer.
-/

namespace PagedIndex

variable {K I : Type} [IndexKey K] [Codec I]

/-- There is an answer with `Q` from a pager that still serves, or a refusal. -/
def Served {K I α : Type} (Serves : Pager K I → Prop) (Refuses : IndexError → Pager K I → Prop)
    (Q : α → Prop) : EStateM.Result (Halt IndexError) (Pager K I) α → Prop
  | .ok a pager => Serves pager ∧ Q a
  | .error (.failed e) pager => Refuses e pager
  | .error _ _ => False

/-- What a pager promises to those who only read: the pages it serves, while what holds, and with which
errors it may refuse and what it is then. -/
structure Service (K I : Type) [IndexKey K] [Codec I] where
  view : PageRef → Option (Page K I)
  Serves : Pager K I → Prop
  Refuses : IndexError → Pager K I → Prop
  limit : Nat
  limit_le : ∀ {pager}, Serves pager → limit ≤ pager.walkLimit
  served : ∀ {pager ref page}, Serves pager → view ref = some page →
    Served Serves Refuses (· = page) (Pager.resolve ref pager)

namespace Service

variable {α β : Type} (srv : Service K I)

/-- While the service is kept, the computation gives an answer with `Q` or passes a refusal on. -/
def Reads (x : Paging K I α) (Q : α → Prop) : Prop :=
  ∀ pager, srv.Serves pager → Served srv.Serves srv.Refuses Q (x pager)

variable {srv} {Q R : α → Prop}

theorem Reads.mono {x : Paging K I α} (h : srv.Reads x Q) (hQ : ∀ a, Q a → R a) : srv.Reads x R := by
  intro pager hp
  have := h pager hp
  revert this
  cases x pager with
  | ok a pager' => exact fun h => ⟨h.1, hQ a h.2⟩
  | error e pager' => cases e <;> exact id

theorem reads_pure {a : α} (h : Q a) : srv.Reads (pure a) Q := fun _ hp => ⟨hp, h⟩

theorem Reads.bind {x : Paging K I α} {f : α → Paging K I β} {R : β → Prop} (hx : srv.Reads x Q)
    (hf : ∀ a, Q a → srv.Reads (f a) R) : srv.Reads (x >>= f) R := by
  intro pager hp
  have h := hx pager hp
  show Served srv.Serves srv.Refuses R (EStateM.bind x f pager)
  unfold EStateM.bind
  revert h
  cases x pager with
  | ok a pager' => exact fun h => hf a h.2 pager' h.1
  | error e pager' => cases e <;> exact id

/-- What is read is known. -/
theorem Reads.bind_eq {x : Paging K I α} {a : α} {f : α → Paging K I β} {R : β → Prop} (hx : srv.Reads x (· = a))
    (hf : srv.Reads (f a) R) : srv.Reads (x >>= f) R :=
  hx.bind fun _ h => h ▸ hf

/-- The pager as it is: it still serves. -/
theorem reads_get : srv.Reads get srv.Serves := fun _ hp => ⟨hp, hp⟩

theorem reads_orAbort {a : α} {o : Option α} (h : o = some a) : srv.Reads (Action.orAbort o) (· = a) := by
  rw [h]
  exact reads_pure rfl

theorem reads_ofExcept {a : α} {r : Except IndexError α} (h : r = .ok a) :
    srv.Reads (Action.ofExcept r) (· = a) := by
  rw [h]
  exact reads_pure rfl

theorem reads_resolve {ref : PageRef} {page : Page K I} (h : srv.view ref = some page) :
    srv.Reads (Pager.resolve ref) (· = page) := fun _ hp => srv.served hp h

/-- The page at the top of a stored tree. -/
theorem reads_top {t : Subtree K I} (h : t.StoredIn srv.view) :
    srv.Reads (Pager.resolve t.ref) (· = t.page) := reads_resolve h.top

/-- One reading for each element of a list. -/
theorem reads_mapM {γ : Type} {f : γ → Paging K I α} {P : γ → α → Prop} {cs : List γ}
    (h : ∀ c ∈ cs, srv.Reads (f c) (P c)) : srv.Reads (cs.mapM f) (List.Forall₂ P cs) := by
  induction cs with
  | nil => rw [List.mapM_nil]; exact reads_pure .nil
  | cons c cs ih =>
    rw [List.mapM_cons]
    refine (h c List.mem_cons_self).bind fun a ha => ?_
    refine (ih fun d hd => h d (List.mem_cons_of_mem c hd)).bind fun as has => ?_
    exact reads_pure (.cons ha has)

/-- There is an answer, or a refusal. -/
theorem Reads.runs_or_fails {x : Paging K I α} (h : srv.Reads x Q) {pager : Pager K I}
    (hp : srv.Serves pager) : (∃ a pager', Action.Runs x pager a pager' ∧ srv.Serves pager' ∧ Q a)
      ∨ ∃ e pager', Action.Fails x pager e pager' ∧ srv.Refuses e pager' := by
  have := h pager hp
  cases hx : x pager with
  | ok a pager' =>
    rw [hx] at this
    exact .inl ⟨a, pager', hx, this⟩
  | error e pager' =>
    rw [hx] at this
    cases e with
    | failed e => exact .inr ⟨e, pager', hx, this⟩
    | aborted => exact this.elim
    | endless => exact this.elim

/-- Where nothing is refused there is an answer. -/
theorem Reads.runs {x : Paging K I α} (h : srv.Reads x Q) (hr : ∀ e pager, ¬ srv.Refuses e pager)
    {pager : Pager K I} (hp : srv.Serves pager) :
    ∃ a pager', Action.Runs x pager a pager' ∧ srv.Serves pager' ∧ Q a := by
  obtain hruns | ⟨e, pager', -, hrefuses⟩ := h.runs_or_fails hp
  · exact hruns
  · exact absurd hrefuses (hr e pager')

/-! ## Back from answers -/

/-- Under a name that has no page nothing is handed out. -/
def Exact (srv : Service K I) : Prop :=
  ∀ {pager ref page pager'}, srv.Serves pager → Action.Runs (Pager.resolve ref) pager page pager' →
    (srv.view ref).isSome

variable (srv) in
/-- Whatever the computation answers, `Q` holds of it. -/
def Yields (x : Paging K I α) (Q : α → Prop) : Prop :=
  ∀ pager, srv.Serves pager → ∀ a pager', Action.Runs x pager a pager' → srv.Serves pager' ∧ Q a

theorem Yields.mono {x : Paging K I α} (h : srv.Yields x Q) (hQ : ∀ a, Q a → R a) : srv.Yields x R :=
  fun pager hp a pager' hrun => (h pager hp a pager' hrun).imp_right (hQ a)

theorem yields_pure {a : α} (h : Q a) : srv.Yields (pure a) Q := by
  intro pager hp b pager' hrun
  obtain ⟨rfl, rfl⟩ := (Action.runs_pure a pager).unique hrun
  exact ⟨hp, h⟩

theorem yields_throw {halt : Halt IndexError} : srv.Yields (throw halt) Q :=
  fun _ _ _ _ hrun => absurd hrun Action.not_runs_throw

theorem Yields.bind {x : Paging K I α} {f : α → Paging K I β} {R : β → Prop} (hx : srv.Yields x Q)
    (hf : ∀ a, Q a → srv.Yields (f a) R) : srv.Yields (x >>= f) R := by
  intro pager hp b pager' hrun
  obtain ⟨a, pager₁, hrun₁, hrun₂⟩ := hrun.of_bind
  obtain ⟨hp₁, ha⟩ := hx pager hp a pager₁ hrun₁
  exact hf a ha pager₁ hp₁ b pager' hrun₂

theorem yields_get : srv.Yields get srv.Serves := by
  intro pager hp a pager' hrun
  obtain ⟨rfl, rfl⟩ := (Action.runs_get pager).unique hrun
  exact ⟨hp, hp⟩

theorem yields_orAbort {o : Option α} (h : ∀ a, o = some a → Q a) : srv.Yields (Action.orAbort o) Q := by
  cases o with
  | none => exact yields_throw
  | some a => exact yields_pure (h a rfl)

theorem yields_ofExcept {r : Except IndexError α} (h : ∀ a, r = .ok a → Q a) : srv.Yields (Action.ofExcept r) Q := by
  cases r with
  | error e => exact yields_throw
  | ok a => exact yields_pure (h a rfl)

theorem Exact.yields_resolve (hx : srv.Exact) (ref : PageRef) :
    srv.Yields (Pager.resolve ref) fun page => srv.view ref = some page := by
  intro pager hp page pager' hrun
  obtain ⟨page', hview⟩ := Option.isSome_iff_exists.mp (hx hp hrun)
  have hserved := srv.served hp hview
  rw [show Pager.resolve ref pager = .ok page pager' from hrun] at hserved
  obtain ⟨hp', rfl⟩ := hserved
  exact ⟨hp', hview⟩

theorem yields_mapM {γ : Type} {f : γ → Paging K I α} {P : γ → α → Prop} {cs : List γ}
    (h : ∀ c ∈ cs, srv.Yields (f c) (P c)) : srv.Yields (cs.mapM f) (List.Forall₂ P cs) := by
  induction cs with
  | nil => rw [List.mapM_nil]; exact yields_pure .nil
  | cons c cs ih =>
    rw [List.mapM_cons]
    refine (h c List.mem_cons_self).bind fun a ha => ?_
    refine (ih fun d hd => h d (List.mem_cons_of_mem c hd)).bind fun as has => ?_
    exact yields_pure (.cons ha has)

/-! ## Both ways -/

theorem reads_of_settles {x : Paging K I α} {P : Prop} {a : α} (h : Action.Settles x P a) (hp : P) :
    srv.Reads x (· = a) := by
  intro pager hserves
  rw [show x pager = .ok a pager from (h _ _ _).mpr ⟨hp, rfl, rfl⟩]
  exact ⟨hserves, rfl⟩

theorem yields_of_settles {x : Paging K I α} {P : Prop} {a : α} (h : Action.Settles x P a) :
    srv.Yields x fun b => P ∧ b = a := by
  intro pager hserves b pager' hrun
  obtain ⟨hp, hb, rfl⟩ := (h _ _ _).mp hrun
  exact ⟨hserves, hp, hb⟩

end Service

end PagedIndex
