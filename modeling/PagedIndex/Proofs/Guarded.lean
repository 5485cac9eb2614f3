import PagedIndex.Proofs.Running
import PagedIndex.Value.Shape

/-!
# Readers of untrusted bytes

`Meets x s Q` says that the computation `x`, started in `s`, fails or gives an answer with `Q`: it does not reach
outside its data and does not walk in a circle. There is one rule for each way in which computations are put together.
A reader meets this if it asks before it takes, and `GuardedCodec` demands it of the types whose values are stored.
-/

namespace PagedIndex

/-! ## Answers and failures -/

/-- The outcome is an answer with `Q`, or a failure. -/
def AnswersOrFails {ε α : Type} (Q : α → Prop) : Except (Halt ε) α → Prop
  | .ok a => Q a
  | .error (.failed _) => True
  | .error _ => False

namespace AnswersOrFails

variable {ε α β : Type} {Q R : α → Prop} {r : Except (Halt ε) α}

theorem failed (h : AnswersOrFails Q r) {halt : Halt ε} (hr : r = .error halt) : ∃ e, halt = .failed e := by
  subst hr
  cases halt with
  | failed e => exact ⟨e, rfl⟩
  | aborted => exact h.elim
  | endless => exact h.elim

theorem answered (h : AnswersOrFails Q r) {a : α} (hr : r = .ok a) : Q a := by
  subst hr
  exact h

theorem mono (h : AnswersOrFails Q r) (hQ : ∀ a, Q a → R a) : AnswersOrFails R r := by
  cases hr : r with
  | ok a => exact hQ a (h.answered hr)
  | error halt =>
    obtain ⟨e, rfl⟩ := h.failed hr
    trivial

theorem bind {f : α → Except (Halt ε) β} {S : β → Prop} (h : AnswersOrFails Q r)
    (hf : ∀ a, r = .ok a → Q a → AnswersOrFails S (f a)) : AnswersOrFails S (r >>= f) := by
  cases hr : r with
  | ok a => exact hf a hr (h.answered hr)
  | error halt =>
    obtain ⟨e, rfl⟩ := h.failed hr
    trivial

end AnswersOrFails

namespace Action

variable {ε ε' σ α β : Type} {Q R : α → σ → Prop} {s : σ}

/-- Started in `s`, the computation fails, or gives an answer and leaves a state with `Q`. -/
def Meets (x : Action ε σ α) (s : σ) (Q : α → σ → Prop) : Prop :=
  match x s with
  | .ok a t => Q a t
  | .error (.failed _) _ => True
  | .error _ _ => False

theorem meets_pure {a : α} (h : Q a s) : Meets (pure a : Action ε σ α) s Q := h

theorem meets_fail (e : ε) : Meets (fail e : Action ε σ α) s Q := trivial

theorem meets_get : Meets (get : Action ε σ σ) s fun a t => a = s ∧ t = s := ⟨rfl, rfl⟩

theorem meets_set (t : σ) : Meets (set t : Action ε σ Unit) s fun _ u => u = t := rfl

theorem meets_orAbort {a : α} {o : Option α} (h : o = some a) (hQ : Q a s) :
    Meets (orAbort o : Action ε σ α) s Q := by
  rw [h]
  exact hQ

theorem Runs.meets {x : Action ε σ α} {a : α} {t : σ} (h : Runs x s a t) (hQ : Q a t) : Meets x s Q := by
  unfold Meets
  rw [show x s = _ from h]
  exact hQ

theorem Fails.meets {x : Action ε σ α} {e : ε} {t : σ} (h : Fails x s e t) : Meets x s Q := by
  unfold Meets
  rw [show x s = _ from h]
  trivial

theorem Meets.runs_or_fails {x : Action ε σ α} (h : Meets x s Q) :
    (∃ a t, Runs x s a t ∧ Q a t) ∨ ∃ e t, Fails x s e t := by
  unfold Meets at h
  cases hx : x s with
  | ok a t =>
    rw [hx] at h
    exact .inl ⟨a, t, hx, h⟩
  | error halt t =>
    rw [hx] at h
    cases halt with
    | failed e => exact .inr ⟨e, t, hx⟩
    | aborted => exact h.elim
    | endless => exact h.elim

theorem Meets.mono {x : Action ε σ α} (h : Meets x s Q) (hQ : ∀ a t, Q a t → R a t) : Meets x s R := by
  obtain ⟨a, t, hruns, hQa⟩ | ⟨e, t, hfails⟩ := h.runs_or_fails
  · exact hruns.meets (hQ a t hQa)
  · exact hfails.meets

theorem Meets.bind {x : Action ε σ α} {f : α → Action ε σ β} {S : β → σ → Prop} (hx : Meets x s Q)
    (hf : ∀ a t, Q a t → Meets (f a) t S) : Meets (x >>= f) s S := by
  obtain ⟨a, t, hruns, hQ⟩ | ⟨e, t, hfails⟩ := hx.runs_or_fails
  · unfold Meets
    rw [hruns.bind_eq]
    exact hf a t hQ
  · exact (hfails.bind f).meets

theorem meets_fail_bind {e : ε} {f : α → Action ε σ β} {S : β → σ → Prop} : Meets (fail e >>= f) s S :=
  Meets.bind (Q := fun _ _ => False) (meets_fail e) fun _ _ h => h.elim

end Action

namespace Reader

open PagedIndex.Action

variable {α : Type} {bytes : List UInt8}

theorem answersOrFails_run {read : Reader α} {Q : α → Prop} (h : Meets read bytes fun a _ => Q a) :
    AnswersOrFails Q (read.run bytes) := by
  unfold Reader.run
  obtain ⟨a, rest, hruns, hQ⟩ | ⟨e, rest, hfails⟩ := h.runs_or_fails
  · rw [show read bytes = _ from hruns]
    exact hQ
  · rw [show read bytes = _ from hfails]
    trivial

theorem meets_left : Meets left bytes fun n rest => n = bytes.length ∧ rest = bytes := ⟨rfl, rfl⟩

/-- Whoever has asked knows how many bytes there are. -/
theorem meets_require (needed : Nat) :
    Meets (require needed) bytes fun _ rest => rest = bytes ∧ needed ≤ bytes.length := by
  unfold require
  refine meets_left.bind ?_
  rintro _ _ ⟨rfl, rfl⟩
  split
  · exact meets_fail _
  · rename_i h
    exact meets_pure ⟨rfl, Nat.not_lt.mp h⟩

/-- What is there may be taken. -/
theorem meets_take {count : Nat} (h : count ≤ bytes.length) :
    Meets (take count) bytes fun raw rest => raw.length = count ∧ rest.length + count = bytes.length := by
  unfold take
  refine meets_get.bind ?_
  rintro _ _ ⟨rfl, rfl⟩
  rw [if_neg (Nat.not_lt.mpr h)]
  refine (meets_set _).bind ?_
  rintro _ _ rfl
  refine meets_pure ⟨?_, ?_⟩
  · rw [List.length_take, Nat.min_eq_left h]
  · rw [List.length_drop, Nat.sub_add_cancel h]

theorem meets_exactly (count : Nat) :
    Meets (exactly count) bytes fun raw rest => raw.length = count ∧ rest.length + count = bytes.length := by
  unfold exactly
  refine meets_left.bind ?_
  rintro _ _ ⟨rfl, rfl⟩
  split
  · exact meets_fail _
  · rename_i h
    exact meets_take (Nat.not_lt.mp h)

theorem meets_number {width : Nat} (h : width ≤ bytes.length) :
    Meets (number width) bytes fun _ rest => rest.length + width = bytes.length := by
  unfold number
  refine (meets_take h).bind ?_
  rintro _ _ ⟨-, hrest⟩
  exact meets_pure hrest

/-- Numbers of some width converted to words. -/
theorem meets_word {width : Nat} (f : Nat → α) (h : width ≤ bytes.length) :
    Meets (do return f (← number width)) bytes fun _ rest => rest.length + width = bytes.length :=
  (meets_number h).bind fun _ _ hrest => meets_pure hrest

/-- A reading that is repeated, `P n` being what holds while `n` readings are still to come. -/
theorem meets_many {read : Reader α} {P : Nat → List UInt8 → Prop}
    (hread : ∀ n bytes, P (n + 1) bytes → Meets read bytes fun _ rest => P n rest) {count : Nat}
    (h : P count bytes) : Meets (many read count) bytes fun as rest => as.length = count ∧ P 0 rest := by
  -- on how many readings are still to come, which is what `P` speaks about
  induction count generalizing bytes with
  | zero => exact meets_pure ⟨rfl, h⟩
  | succ count ih =>
    rw [many]
    refine (hread count bytes h).bind fun a mid hmid => ?_
    refine (ih hmid).bind ?_
    rintro as rest ⟨hlen, hrest⟩
    exact meets_pure ⟨congrArg (· + 1) hlen, hrest⟩

/-- As many words as there is room for. -/
theorem meets_manyWords {read : Reader α} {width : Nat}
    (hread : ∀ bytes, width ≤ bytes.length → Meets read bytes fun _ rest => rest.length + width = bytes.length)
    {count : Nat} (h : count * width ≤ bytes.length) :
    Meets (many read count) bytes fun as _ => as.length = count := by
  refine (meets_many (P := fun n bytes => n * width ≤ bytes.length) (fun n bytes hn => ?_) h).mono fun _ _ => And.left
  rw [Nat.add_one_mul] at hn
  refine (hread bytes (Nat.le_of_add_left_le hn)).mono fun _ rest hrest => ?_
  omega

end Reader

/-! ## Keys and items -/

/-- A type whose reader fails or answers, whatever bytes it is given. -/
class GuardedCodec (α : Type) [Codec α] : Prop where
  guarded : ∀ bytes, Action.Meets (Codec.decode : Reader α) bytes fun _ _ => True

namespace Codec

open PagedIndex.Action Reader

variable {α β : Type} {bytes : List UInt8}

theorem meets_number (width : Nat) :
    Meets (number width) bytes fun _ rest => rest.length + width = bytes.length := by
  unfold number
  refine (meets_require width).bind ?_
  rintro _ _ ⟨rfl, h⟩
  exact Reader.meets_number h

theorem guarded_number {width : Nat} (f : Nat → α) (bytes : List UInt8) :
    Meets (do return f (← number width)) bytes fun _ _ => True :=
  (meets_number width).bind fun _ _ _ => meets_pure trivial

theorem guarded_converted [Codec β] [GuardedCodec β] (back : β → α) (bytes : List UInt8) :
    Meets (do return back (← decode)) bytes fun _ _ => True :=
  (GuardedCodec.guarded bytes).bind fun _ _ _ => meets_pure trivial

instance : GuardedCodec UInt8 := ⟨guarded_number UInt8.ofNat⟩

instance : GuardedCodec UInt16 := ⟨guarded_number UInt16.ofNat⟩

instance : GuardedCodec UInt32 := ⟨guarded_number UInt32.ofNat⟩

instance : GuardedCodec UInt64 := ⟨guarded_number UInt64.ofNat⟩

instance : GuardedCodec Int8 := ⟨guarded_converted UInt8.toInt8⟩

instance : GuardedCodec Int16 := ⟨guarded_converted UInt16.toInt16⟩

instance : GuardedCodec Int32 := ⟨guarded_converted UInt32.toInt32⟩

instance : GuardedCodec Int64 := ⟨guarded_converted UInt64.toInt64⟩

instance : GuardedCodec Bool where
  guarded bytes := by
    refine Meets.bind (GuardedCodec.guarded (α := UInt8) bytes) fun byte _ _ => ?_
    split
    · exact meets_pure trivial
    · split
      · exact meets_pure trivial
      · exact meets_fail _

instance : GuardedCodec (List UInt8) where
  guarded bytes := by
    refine (meets_number 4).bind fun length rest _ => ?_
    refine (meets_require length).bind ?_
    rintro _ _ ⟨rfl, h⟩
    exact (meets_take h).mono fun _ _ _ => trivial

instance : GuardedCodec String where
  guarded bytes := by
    refine Meets.bind (GuardedCodec.guarded (α := List UInt8) bytes) fun raw _ _ => ?_
    split
    · exact meets_pure trivial
    · exact meets_fail _

instance [Codec α] [Codec β] [GuardedCodec α] [GuardedCodec β] : GuardedCodec (α × β) where
  guarded bytes :=
    (GuardedCodec.guarded bytes).bind fun _ rest _ =>
      (GuardedCodec.guarded rest).bind fun _ _ _ => meets_pure trivial

end Codec

/-- Whatever a shape describes is read that way. -/
instance Shape.guardedCodec : (s : Shape) → GuardedCodec s.Value
  | u8 => inferInstanceAs (GuardedCodec UInt8)
  | i8 => inferInstanceAs (GuardedCodec Int8)
  | u16 => inferInstanceAs (GuardedCodec UInt16)
  | i16 => inferInstanceAs (GuardedCodec Int16)
  | u32 => inferInstanceAs (GuardedCodec UInt32)
  | i32 => inferInstanceAs (GuardedCodec Int32)
  | u64 => inferInstanceAs (GuardedCodec UInt64)
  | i64 => inferInstanceAs (GuardedCodec Int64)
  | bool => inferInstanceAs (GuardedCodec Bool)
  | str => inferInstanceAs (GuardedCodec String)
  | bytes => inferInstanceAs (GuardedCodec (List UInt8))
  | pair first second =>
    have := first.guardedCodec
    have := second.guardedCodec
    inferInstanceAs (GuardedCodec (first.Value × second.Value))

end PagedIndex
