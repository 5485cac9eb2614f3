import PagedIndex.Pager.Gate
import Mathlib.Data.List.Basic

/-!
# How the coming calls are answered

A schedule settles the fate of every call to come. `answers` reads it off for the next few calls and `drop` is
what is left of the schedule then, so that it can be said which calls of an operation were refused. `Calls` counts
the calls that an operation has made.
-/

namespace PagedIndex

namespace Schedule

/-- The schedule after `n` calls. -/
def drop : Nat → Schedule → Schedule
  | 0, schedule => schedule
  | n + 1, schedule => drop n schedule.next.2

/-- The verdicts on the next `n` calls. -/
def answers : Nat → Schedule → List Verdict
  | 0, _ => []
  | n + 1, schedule => schedule.next.1 :: answers n schedule.next.2

/-- The next `n` calls all go through. -/
def Grants (n : Nat) (schedule : Schedule) : Prop := ∀ verdict ∈ schedule.answers n, verdict = .granted

/-- The next `n` calls all go through, and then one is refused, for this reason. -/
def Bars (n reason : Nat) (schedule : Schedule) : Prop :=
  schedule.Grants n ∧ (schedule.drop n).next.1 = .refused reason

@[simp]
theorem length_answers (n : Nat) (schedule : Schedule) : (schedule.answers n).length = n := by
  induction n generalizing schedule with
  | zero => rfl
  | succ n ih => rw [answers, List.length_cons, ih]

theorem drop_add (m n : Nat) (schedule : Schedule) :
    schedule.drop (m + n) = (schedule.drop m).drop n := by
  induction m generalizing schedule with
  | zero => rw [Nat.zero_add, drop]
  | succ m ih => rw [Nat.succ_add, drop, drop, ih]

theorem answers_add (m n : Nat) (schedule : Schedule) :
    schedule.answers (m + n) = schedule.answers m ++ (schedule.drop m).answers n := by
  induction m generalizing schedule with
  | zero => rw [Nat.zero_add]; rfl
  | succ m ih => rw [Nat.succ_add, answers, answers, ih]; rfl

theorem grants_zero (schedule : Schedule) : schedule.Grants 0 := by simp [Grants, answers]

theorem grants_add {m n : Nat} {schedule : Schedule} :
    schedule.Grants (m + n) ↔ schedule.Grants m ∧ (schedule.drop m).Grants n := by
  unfold Grants
  rw [answers_add]
  exact List.forall_mem_append

/-- A call more that goes through. -/
theorem Grants.succ {n : Nat} {schedule : Schedule} (h : schedule.Grants n)
    (hnext : (schedule.drop n).next.1 = .granted) : schedule.Grants (n + 1) :=
  grants_add.mpr ⟨h, by simp [Grants, answers, hnext]⟩

/-- First some calls go through, and then there are others before one is refused. -/
theorem Grants.bars {m n reason : Nat} {schedule : Schedule} (h : schedule.Grants m)
    (hbars : (schedule.drop m).Bars n reason) : schedule.Bars (m + n) reason :=
  ⟨grants_add.mpr ⟨h, hbars.1⟩, by rw [drop_add]; exact hbars.2⟩

/-- A call that goes through, before others of which one is refused. -/
theorem Bars.succ {n reason : Nat} {schedule : Schedule} (hnext : schedule.next.1 = .granted)
    (h : schedule.next.2.Bars n reason) : schedule.Bars (n + 1) reason :=
  ⟨List.forall_mem_cons.mpr ⟨hnext, h.1⟩, h.2⟩

/-- Where a call is refused that is among the next ones, they do not all go through. -/
theorem Bars.not_grants {m n reason : Nat} {schedule : Schedule} (h : schedule.Bars m reason) (hlt : m < n) :
    ¬ schedule.Grants n := by
  intro hall
  obtain ⟨k, rfl⟩ := Nat.exists_eq_add_of_lt hlt
  rw [Nat.add_assoc, grants_add] at hall
  have hnext := (List.forall_mem_cons.mp hall.2).1
  rw [h.2] at hnext
  exact absurd hnext (by simp)

/-- Where all calls go through, each of what they are about is let through. -/
theorem Grants.mem_zip {α : Type} {as : List α} {schedule : Schedule} (h : schedule.Grants as.length) {a : α} :
    (a, .granted) ∈ as.zip (schedule.answers as.length) ↔ a ∈ as := by
  refine ⟨fun hmem => (List.of_mem_zip hmem).1, fun hmem => ?_⟩
  obtain ⟨i, hi, rfl⟩ := List.getElem_of_mem hmem
  refine List.mem_iff_getElem.mpr ⟨i, by rwa [List.length_zip, length_answers, Nat.min_self], ?_⟩
  rw [List.getElem_zip]
  exact congrArg _ (h _ (List.getElem_mem _))

/-! ## A schedule that refuses nothing -/

@[simp]
theorem drop_always (n : Nat) : always.drop n = always := by
  induction n with
  | zero => rfl
  | succ n ih => exact ih

theorem answers_always (n : Nat) : always.answers n = List.replicate n .granted := by
  induction n with
  | zero => rfl
  | succ n ih =>
    rw [List.replicate_succ, ← ih]
    rfl

theorem grants_always (n : Nat) : always.Grants n := by
  rw [Grants, answers_always]
  exact fun _ h => List.eq_of_mem_replicate h

theorem not_bars_always (n reason : Nat) : ¬ always.Bars n reason := by
  intro h
  have hnext := h.2
  rw [drop_always] at hnext
  exact absurd hnext (by simp [always, next, nextRun])

/-- Of calls that go through, every one counts. -/
theorem Grants.count {n : Nat} {schedule : Schedule} (h : schedule.Grants n) :
    (schedule.answers n).count .granted = n := by
  rw [List.count_eq_length.mpr fun verdict hv => (h verdict hv).symm, length_answers]

/-- Of calls of which only the last is refused, every other one counts. -/
theorem Bars.count {n reason : Nat} {schedule : Schedule} (h : schedule.Bars n reason) :
    (schedule.answers (n + 1)).count .granted = n := by
  rw [answers_add, List.count_append, h.1.count, answers, h.2, answers, List.count_cons_of_ne (by simp),
    List.count_nil, Nat.add_zero]

end Schedule

/-- How many calls of each kind have been made. -/
structure Calls where
  resolve : Nat
  create : Nat
  release : Nat

namespace Gate

/-- The gate after these calls. -/
def drop (calls : Calls) (gate : Gate) : Gate :=
  { gate with
    resolve := gate.resolve.drop calls.resolve
    create := gate.create.drop calls.create
    release := gate.release.drop calls.release }

/-- Of these calls one was refused, after which no page was resolved or made any more, and the failure is that
refusal: of a call to resolve a page, or of the call to make one after `k` others, all of which were then offered for
release. -/
inductive Refuses (gate : Gate) : Calls → IndexError → Prop
  | resolve {n reason : Nat} : gate.resolve.Bars n reason →
    Refuses gate ⟨n + 1, 0, 0⟩ (.io (.callRefused .resolve reason))
  | create {n k reason : Nat} : gate.resolve.Grants n → gate.create.Bars k reason →
    Refuses gate ⟨n, k + 1, k⟩ (.io (.callRefused .create reason))

theorem not_refuses_wide {calls : Calls} {e : IndexError} : ¬ wide.Refuses calls e := by
  rintro (h | ⟨-, h⟩)
  · exact Schedule.not_bars_always _ _ h
  · exact Schedule.not_bars_always _ _ h

theorem drop_wide (calls : Calls) : wide.drop calls = wide := by
  simp [drop, wide]

end Gate

end PagedIndex
