import PagedIndex.Halt

/-!
# Runs

`Runs x s a t` says that the computation `x`, started in `s`, gives the answer `a` and leaves `t`. There is
one rule for each way in which computations are put together, so that a long one is followed step by step.
-/

namespace PagedIndex

namespace Action

variable {ε σ τ α β : Type}

/-! ## One step -/

theorem bind_apply (x : Action ε σ α) (f : α → Action ε σ β) (s : σ) :
    (x >>= f) s = match x s with
      | .ok a t => f a t
      | .error e t => .error e t := by
  show EStateM.bind x f s = _
  unfold EStateM.bind
  cases x s <;> rfl

theorem get_apply (s : σ) : (get : Action ε σ σ) s = .ok s s := rfl

theorem set_apply (s t : σ) : (set t : Action ε σ Unit) s = .ok () t := rfl

/-! ## Runs -/

/-- Started in `s`, the computation answers `a` and leaves `t`. -/
def Runs (x : Action ε σ α) (s : σ) (a : α) (t : σ) : Prop := x s = .ok a t

theorem runs_pure (a : α) (s : σ) : Runs (pure a : Action ε σ α) s a s := rfl

theorem runs_get (s : σ) : Runs (get : Action ε σ σ) s s s := rfl

theorem runs_set (s t : σ) : Runs (set t : Action ε σ Unit) s () t := rfl

theorem runs_modify (f : σ → σ) (s : σ) : Runs (modify f : Action ε σ Unit) s () (f s) := rfl

theorem Runs.bind {x : Action ε σ α} {f : α → Action ε σ β} {s t u : σ} {a : α} {b : β}
    (hx : Runs x s a t) (hf : Runs (f a) t b u) : Runs (x >>= f) s b u := by
  show EStateM.bind x f s = _
  unfold EStateM.bind
  rw [show x s = .ok a t from hx]
  exact hf

/-- A computation in two parts runs only if both of them do. -/
theorem Runs.of_bind {x : Action ε σ α} {f : α → Action ε σ β} {s u : σ} {b : β} (h : Runs (x >>= f) s b u) :
    ∃ a t, Runs x s a t ∧ Runs (f a) t b u := by
  unfold Runs at h
  rw [bind_apply] at h
  cases hx : x s with
  | ok a t =>
    rw [hx] at h
    exact ⟨a, t, hx, h⟩
  | error e t =>
    rw [hx] at h
    exact absurd h (by simp)

theorem not_runs_throw {halt : Halt ε} {s t : σ} {a : α} : ¬ Runs (throw halt : Action ε σ α) s a t := by
  intro h
  exact absurd (show EStateM.Result.error halt s = .ok a t from h) (by simp)

theorem not_runs_fail {e : ε} {s t : σ} {a : α} : ¬ Runs (fail e : Action ε σ α) s a t := not_runs_throw

/-- What comes behind a check runs only if nothing was found. -/
theorem Runs.of_check {c : Prop} [Decidable c] {e : ε} {x : Action ε σ α} {s t : σ} {a : α}
    (h : Runs (if c then fail e >>= fun _ : Unit => x else x) s a t) : ¬ c ∧ Runs x s a t := by
  by_cases hc : c
  · rw [if_pos hc] at h
    obtain ⟨_, _, hfail, -⟩ := h.of_bind
    exact absurd hfail not_runs_fail
  · rw [if_neg hc] at h
    exact ⟨hc, h⟩

/-- What comes after a computation that runs. -/
theorem Runs.bind_eq {x : Action ε σ α} {s t : σ} {a : α} (hx : Runs x s a t) (f : α → Action ε σ β) :
    (x >>= f) s = f a t := by
  rw [bind_apply, show x s = .ok a t from hx]

theorem runs_orAbort {a : α} {o : Option α} (h : o = some a) (s : σ) :
    Runs (orAbort o : Action ε σ α) s a s := by
  rw [h]
  rfl

theorem runs_ofExcept {a : α} {r : Except ε α} (h : r = .ok a) (s : σ) :
    Runs (ofExcept r : Action ε σ α) s a s := by
  rw [h]
  rfl

theorem Runs.attempt {x : Action ε σ α} {s t : σ} {a : α} (h : Runs x s a t) :
    Runs (Action.attempt x) s (.ok a) t := by
  unfold Runs Action.attempt
  rw [show x s = .ok a t from h]

theorem Runs.zoom {get : σ → τ} {set : τ → σ → σ} {x : Action ε τ α} {s : σ} {t : τ} {a : α}
    (h : Runs x (get s) a t) : Runs (Action.zoom get set x) s a (set t s) := by
  unfold Runs Action.zoom
  rw [show x (get s) = .ok a t from h]

theorem Runs.mapError {ε' : Type} {x : Action ε σ α} {s t : σ} {a : α} (h : Runs x s a t) (f : ε → ε') :
    Runs (Action.mapError f x) s a t := by
  unfold Runs Action.mapError
  rw [show x s = .ok a t from h]

/-- Started in `s`, the computation fails with `e` and leaves `t`. -/
def Fails (x : Action ε σ α) (s : σ) (e : ε) (t : σ) : Prop := x s = .error (.failed e) t

theorem fails_fail (e : ε) (s : σ) : Fails (fail e : Action ε σ α) s e s := rfl

theorem Runs.fails {x : Action ε σ α} {f : α → Action ε σ β} {s t u : σ} {a : α} {e : ε}
    (hx : Runs x s a t) (hf : Fails (f a) t e u) : Fails (x >>= f) s e u := by
  unfold Fails
  rw [bind_apply, show x s = .ok a t from hx]
  exact hf

theorem Fails.bind {x : Action ε σ α} {s t : σ} {e : ε} (hx : Fails x s e t) (f : α → Action ε σ β) :
    Fails (x >>= f) s e t := by
  unfold Fails
  rw [bind_apply, show x s = .error (.failed e) t from hx]

/-- A computation in two parts fails in its first part, or runs there and fails in its second. -/
theorem Fails.of_bind {x : Action ε σ α} {f : α → Action ε σ β} {s u : σ} {e : ε} (h : Fails (x >>= f) s e u) :
    Fails x s e u ∨ ∃ a t, Runs x s a t ∧ Fails (f a) t e u := by
  unfold Fails at h
  rw [bind_apply] at h
  cases hx : x s with
  | ok a t =>
    rw [hx] at h
    exact .inr ⟨a, t, hx, h⟩
  | error halt t =>
    rw [hx] at h
    obtain ⟨rfl, rfl⟩ := EStateM.Result.error.inj (show EStateM.Result.error halt t = .error (.failed e) u from h)
    exact .inl hx

theorem Fails.attempt {x : Action ε σ α} {s t : σ} {e : ε} (h : Fails x s e t) :
    Runs (Action.attempt x) s (.error e) t := by
  unfold Runs Action.attempt
  rw [show x s = .error (.failed e) t from h]

theorem Fails.zoom {get : σ → τ} {set : τ → σ → σ} {x : Action ε τ α} {s : σ} {t : τ} {e : ε}
    (h : Fails x (get s) e t) : Fails (Action.zoom get set x) s e (set t s) := by
  unfold Fails at h
  unfold Fails Action.zoom
  rw [h]

theorem Fails.mapError {ε' : Type} {x : Action ε σ α} {s t : σ} {e : ε} (h : Fails x s e t) (f : ε → ε') :
    Fails (Action.mapError f x) s (f e) t := by
  unfold Fails at h
  unfold Fails Action.mapError
  rw [h]

/-- A computation does not fail where it runs. -/
theorem Fails.not_runs {x : Action ε σ α} {s t u : σ} {a : α} {e : ε} (h : Fails x s e t) : ¬ Runs x s a u := by
  intro h'
  exact absurd (h.symm.trans h') (by simp)

/-- A computation whose answer is only converted fails where that answer is not given. -/
theorem Fails.of_map {x : Action ε σ α} {f : α → β} {s t : σ} {e : ε} (h : Fails (do return f (← x)) s e t) :
    Fails x s e t := by
  obtain hx | ⟨a, u, -, hpure⟩ := h.of_bind
  · exact hx
  · exact absurd (runs_pure (f a) u) hpure.not_runs

/-- A computation that fails leaves exactly one error and one state. -/
theorem Fails.unique {x : Action ε σ α} {s t t' : σ} {e e' : ε} (h : Fails x s e t) (h' : Fails x s e' t') :
    e = e' ∧ t = t' := by
  obtain ⟨he, ht⟩ := EStateM.Result.error.inj (h.symm.trans h')
  exact ⟨Halt.failed.inj he, ht⟩

/-- What a computation answers when it is started in `s`. -/
def answer (x : Action ε σ α) (s : σ) : Except (Halt ε) α :=
  match x s with
  | .ok a _ => .ok a
  | .error halt _ => .error halt

/-- The state that a computation leaves, with or without an answer. -/
def after (x : Action ε σ α) (s : σ) : σ :=
  match x s with
  | .ok _ t => t
  | .error _ t => t

theorem Runs.answer_eq {x : Action ε σ α} {s t : σ} {a : α} (h : Runs x s a t) : x.answer s = .ok a := by
  unfold answer
  rw [show x s = .ok a t from h]

theorem exists_runs_of_answer {x : Action ε σ α} {s : σ} {a : α} (h : x.answer s = .ok a) : ∃ t, Runs x s a t := by
  unfold answer at h
  split at h
  · rename_i b t hrun
    obtain rfl := Except.ok.inj h
    exact ⟨t, hrun⟩
  · exact absurd h (by simp)

theorem Runs.after_eq {x : Action ε σ α} {s t : σ} {a : α} (h : Runs x s a t) : x.after s = t := by
  unfold after
  rw [show x s = .ok a t from h]

/-- Where there is an answer, the computation ran. -/
theorem runs_of_answer {x : Action ε σ α} {s : σ} {a : α} (h : x.answer s = .ok a) : Runs x s a (x.after s) := by
  obtain ⟨t, hrun⟩ := exists_runs_of_answer h
  rwa [hrun.after_eq]

theorem Fails.answer_eq {x : Action ε σ α} {s t : σ} {e : ε} (h : Fails x s e t) :
    x.answer s = .error (.failed e) := by
  unfold answer
  rw [show x s = .error (.failed e) t from h]

theorem Fails.after_eq {x : Action ε σ α} {s t : σ} {e : ε} (h : Fails x s e t) : x.after s = t := by
  unfold after
  rw [show x s = .error (.failed e) t from h]

/-- A computation that runs leaves exactly one answer and one state. -/
theorem Runs.unique {x : Action ε σ α} {s t t' : σ} {a a' : α} (h : Runs x s a t)
    (h' : Runs x s a' t') : a = a' ∧ t = t' := by
  have := h.symm.trans h'
  exact ⟨(EStateM.Result.ok.inj this).1, (EStateM.Result.ok.inj this).2⟩

/-- Computations that leave the state alone, one for each element of a list. -/
theorem runs_mapM {γ : Type} {f : α → Action ε σ β} {h : γ → α} {g : γ → β} {s : σ} {cs : List γ}
    (hf : ∀ c ∈ cs, Runs (f (h c)) s (g c) s) : Runs ((cs.map h).mapM f) s (cs.map g) s := by
  induction cs with
  | nil => rw [List.map_nil, List.mapM_nil]; exact runs_pure _ _
  | cons c cs ih =>
    rw [List.map_cons, List.mapM_cons]
    refine (hf c List.mem_cons_self).bind ?_
    exact (ih fun d hd => hf d (List.mem_cons_of_mem c hd)).bind (runs_pure _ _)

/-! ## Settled computations -/

/-- The computation runs exactly where `P` holds, answers `a` then, and leaves the state as it is. -/
def Settles (x : Action ε σ α) (P : Prop) (a : α) : Prop :=
  ∀ s b t, Runs x s b t ↔ P ∧ b = a ∧ t = s

variable {P Q : Prop} {a : α} {b : β}

theorem settles_pure : Settles (pure a : Action ε σ α) True a := by
  intro s b t
  constructor
  · intro h
    obtain ⟨rfl, rfl⟩ := (runs_pure a s).unique h
    exact ⟨trivial, rfl, rfl⟩
  · rintro ⟨-, rfl, rfl⟩
    exact runs_pure b _

theorem settles_fail {e : ε} (hP : ¬ P) : Settles (fail e : Action ε σ α) P a :=
  fun _ _ _ => ⟨fun h => absurd h not_runs_fail, fun h => absurd h.1 hP⟩

theorem settles_fail_bind {e : ε} {f : α → Action ε σ β} (hP : ¬ P) : Settles (fail e >>= f) P b := by
  intro s b' t
  constructor
  · intro h
    obtain ⟨_, _, hfail, -⟩ := h.of_bind
    exact absurd hfail not_runs_fail
  · exact fun h => absurd h.1 hP

theorem Settles.bind {x : Action ε σ α} {f : α → Action ε σ β} (hx : Settles x P a) (hf : Settles (f a) Q b) :
    Settles (x >>= f) (P ∧ Q) b := by
  intro s b' t
  constructor
  · intro h
    obtain ⟨_, _, hx', hf'⟩ := h.of_bind
    obtain ⟨hp, rfl, rfl⟩ := (hx _ _ _).mp hx'
    obtain ⟨hq, hb⟩ := (hf _ _ _).mp hf'
    exact ⟨⟨hp, hq⟩, hb⟩
  · rintro ⟨⟨hp, hq⟩, rfl, rfl⟩
    exact ((hx _ _ _).mpr ⟨hp, rfl, rfl⟩).bind ((hf _ _ _).mpr ⟨hq, rfl, rfl⟩)

theorem Settles.congr {x : Action ε σ α} (h : Settles x P a) (hPQ : P ↔ Q) : Settles x Q a := by
  intro s b t
  rw [← hPQ]
  exact h s b t

end Action

end PagedIndex
