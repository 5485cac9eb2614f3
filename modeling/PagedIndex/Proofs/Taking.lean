import PagedIndex.Proofs.Running
import PagedIndex.Bytes.Reader
import Mathlib.Algebra.Group.Nat.Defs

/-!
# Taking bytes

`Takes read bytes a` says that a reader takes exactly `bytes` from the front of whatever it is given, and answers
`a`. There is one rule for each way in which readers are put together, so that the stored form of a value is read
back part by part.
-/

namespace PagedIndex.Reader

variable {α β γ : Type}

/-- In front of any other bytes, the reader takes `bytes` and answers `a`. -/
def Takes (read : Reader α) (bytes : List UInt8) (a : α) : Prop :=
  ∀ rest, Action.Runs read (bytes ++ rest) a rest

variable {read : Reader α} {bs cs : List UInt8} {a : α} {b : β}

theorem takes_pure (a : α) : Takes (pure a) [] a := fun _ => rfl

theorem Takes.bind {f : α → Reader β} (h : Takes read bs a) (hf : Takes (f a) cs b) :
    Takes (read >>= f) (bs ++ cs) b := by
  intro rest
  rw [List.append_assoc]
  exact (h (cs ++ rest)).bind (hf rest)

/-- An answer that is only converted. -/
theorem Takes.map {f : α → Reader β} (h : Takes read bs a) (hf : f a = pure b) : Takes (read >>= f) bs b := by
  rw [← List.append_nil bs]
  exact h.bind (hf ▸ takes_pure b)

/-- What is taken may be written in another way. -/
theorem Takes.congr (h : Takes read bs a) (heq : bs = cs) : Takes read cs a := heq ▸ h

theorem Takes.run (h : Takes read bs a) (rest : List UInt8) : read.run (bs ++ rest) = .ok a := by
  unfold Reader.run
  rw [show read (bs ++ rest) = _ from h rest]

theorem runs_of_run_eq {bytes : List UInt8} (h : read.run bytes = .ok a) : ∃ rest, Action.Runs read bytes a rest := by
  unfold run at h
  cases hread : read bytes with
  | ok a' rest =>
    rw [hread] at h
    obtain rfl := Except.ok.inj h
    exact ⟨rest, hread⟩
  | error e rest =>
    rw [hread] at h
    exact absurd h (by simp)

theorem run_of_fails {bytes rest : List UInt8} {e : IoError} (h : Action.Fails read bytes e rest) :
    read.run bytes = .error (.failed e) := by
  unfold run
  rw [show read bytes = _ from h]

theorem runs_left (bytes : List UInt8) : Action.Runs left bytes bytes.length bytes := rfl

theorem runs_require {needed : Nat} {bytes : List UInt8} (h : needed ≤ bytes.length) :
    Action.Runs (require needed) bytes () bytes := by
  unfold require
  refine (runs_left bytes).bind ?_
  rw [if_neg (Nat.not_lt.mpr h)]
  exact Action.runs_pure () bytes

theorem le_of_runs_require {needed : Nat} {bytes rest : List UInt8} {a : Unit}
    (h : Action.Runs (require needed) bytes a rest) : needed ≤ bytes.length := by
  refine Nat.not_lt.mp fun hlt => ?_
  obtain ⟨n, mid, hleft, hfail⟩ := Action.Runs.of_bind h
  obtain ⟨rfl, rfl⟩ := hleft.unique (runs_left bytes)
  rw [if_pos hlt] at hfail
  exact Action.not_runs_fail hfail

theorem fails_require {needed : Nat} {bytes : List UInt8} (h : bytes.length < needed) :
    Action.Fails (require needed) bytes (.truncated bytes.length needed) bytes := by
  refine (runs_left bytes).fails ?_
  rw [if_pos h]
  exact Action.fails_fail _ _

/-- A reader that answers wherever there are as many bytes as it asked for fails where there are fewer, and nowhere
else. -/
theorem fails_asking_iff {needed : Nat} {bytes rest : List UInt8} {e : IoError}
    (hread : ∀ bytes, needed ≤ bytes.length → ∃ a rest, Action.Runs read bytes a rest) :
    Action.Fails (do require needed; read) bytes e rest
      ↔ bytes.length < needed ∧ e = .truncated bytes.length needed ∧ rest = bytes := by
  constructor
  · intro h
    by_cases hshort : bytes.length < needed
    · obtain ⟨rfl, rfl⟩ := h.unique ((fails_require hshort).bind _)
      exact ⟨hshort, rfl, rfl⟩
    · obtain ⟨a, left, hrun⟩ := hread bytes (Nat.not_lt.mp hshort)
      exact absurd ((runs_require (Nat.not_lt.mp hshort)).bind hrun) h.not_runs
  · rintro ⟨hshort, rfl, rfl⟩
    exact (fails_require hshort).bind _

/-- A reader may ask first for as much as it takes. -/
theorem Takes.require (h : Takes read bs a) {needed : Nat} (hn : needed ≤ bs.length) :
    Takes (do require needed; read) bs a := by
  intro rest
  refine (runs_require ?_).bind (h rest)
  rw [List.length_append]
  exact Nat.le_add_right_of_le hn

theorem takes_take {count : Nat} (h : bs.length = count) : Takes (take count) bs bs := by
  intro rest
  subst h
  unfold take
  refine (Action.runs_get _).bind ?_
  rw [if_neg (by simp)]
  refine (Action.runs_set _ _).bind ?_
  rw [List.drop_left, List.take_left]
  exact Action.runs_pure _ _

theorem runs_take {count : Nat} {bytes : List UInt8} (h : count ≤ bytes.length) :
    Action.Runs (take count) bytes (bytes.take count) (bytes.drop count) := by
  have hrun := takes_take (List.length_take_of_le h) (bytes.drop count)
  rwa [List.take_append_drop] at hrun

theorem takes_exactly {count : Nat} (h : bs.length = count) : Takes (exactly count) bs bs := by
  intro rest
  unfold exactly
  refine (runs_left _).bind ?_
  rw [if_neg (by simp [h])]
  exact takes_take h rest

theorem length_of_runs_exactly {count : Nat} {bytes bs rest : List UInt8}
    (h : Action.Runs (exactly count) bytes bs rest) : bs.length = count := by
  obtain ⟨n, mid, hleft, htake⟩ := Action.Runs.of_bind h
  obtain ⟨rfl, rfl⟩ := (runs_left bytes).unique hleft
  by_cases hshort : bytes.length < count
  · rw [if_pos hshort] at htake
    exact absurd htake Action.not_runs_fail
  · rw [if_neg hshort] at htake
    have hcount := Nat.not_lt.mp hshort
    rw [(htake.unique (runs_take hcount)).1, List.length_take_of_le hcount]

/-! ## Numbers -/

/-- What is read back of a number that does not fit is its remainder. -/
theorem takes_number_mod (width n : Nat) :
    Takes (number width) (Bytes.LittleEndian.ofNat width n) (n % Bytes.LittleEndian.count width) := by
  refine (takes_take (Bytes.LittleEndian.length_ofNat width n)).map ?_
  rw [Bytes.LittleEndian.toNat_ofNat_mod]

theorem takes_number {width n : Nat} (h : n < Bytes.LittleEndian.count width) :
    Takes (number width) (Bytes.LittleEndian.ofNat width n) n := by
  have hmod := takes_number_mod width n
  rwa [Nat.mod_eq_of_lt h] at hmod

theorem takes_byte (n : UInt8) : Takes byte [n] n := by
  have h := @takes_number 1 n.toNat n.toNat_lt
  rw [Bytes.LittleEndian.ofNat_one] at h
  exact h.map (by rw [UInt8.ofNat_toNat])

theorem takes_word16 (n : UInt16) : Takes word16 (Bytes.ofWord16 n) n :=
  (takes_number n.toNat_lt).map (by rw [UInt16.ofNat_toNat])

theorem takes_word32 (n : UInt32) : Takes word32 (Bytes.ofWord32 n) n :=
  (takes_number n.toNat_lt).map (by rw [UInt32.ofNat_toNat])

theorem takes_word64 (n : UInt64) : Takes word64 (Bytes.ofWord64 n) n :=
  (takes_number n.toNat_lt).map (by rw [UInt64.ofNat_toNat])

/-! ## Lists -/

/-- Values stored one after the other are read one after the other. -/
theorem takes_many {encode : γ → List UInt8} {f : γ → α} {cs : List γ}
    (h : ∀ c ∈ cs, Takes read (encode c) (f c)) : Takes (many read cs.length) (cs.flatMap encode) (cs.map f) := by
  induction cs with
  | nil => exact takes_pure []
  | cons c cs ih =>
    rw [List.length_cons, many, List.flatMap_cons, List.map_cons]
    refine (h c List.mem_cons_self).bind ?_
    exact (ih fun x hx => h x (List.mem_cons_of_mem c hx)).map rfl

end PagedIndex.Reader
