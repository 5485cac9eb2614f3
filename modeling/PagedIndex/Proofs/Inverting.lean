import PagedIndex.Proofs.Codec

/-!
# Values have one stored form

A reader `Inverts` a way of storing values if it reads back what was stored of a value that fits, and answers nothing
else: whatever bytes it accepts are what is stored of its answer. So no value has two stored forms, and no byte that
was taken is ignored. There is one rule for each way in which readers are put together, and every type that a shape
describes keeps to it, as far as the lengths of texts and byte strings can be stored (`Shape.inverts`).
-/

namespace PagedIndex

namespace Reader

variable {α β γ : Type}

/-- The reader accepts the stored forms of the values that fit, each as its value, and no other bytes. -/
structure Inverts (read : Reader α) (encode : α → List UInt8) (Fits : α → Prop) : Prop where
  takes : ∀ a, Fits a → Takes read (encode a) a
  canonical : ∀ {bytes a rest}, Action.Runs read bytes a rest → bytes = encode a ++ rest ∧ Fits a

variable {read : Reader α} {encode : α → List UInt8} {Fits : α → Prop}

/-! ## Putting readers together -/

theorem inverts_pure (a : α) : Inverts (pure a) (fun _ => []) (· = a) where
  takes := by
    rintro _ rfl
    exact takes_pure _
  canonical h := by
    obtain ⟨rfl, rfl⟩ := (Action.runs_pure a _).unique h
    exact ⟨rfl, rfl⟩

theorem inverts_fail (e : IoError) (encode : α → List UInt8) : Inverts (Action.fail e) encode fun _ => False where
  takes _ h := h.elim
  canonical h := absurd h Action.not_runs_fail

theorem Inverts.congr {form : α → List UInt8} {Q : α → Prop} (h : Inverts read encode Fits)
    (hform : ∀ a, Fits a → encode a = form a) (hfits : ∀ a, Fits a ↔ Q a) : Inverts read form Q where
  takes a ha := by
    have hfits := (hfits a).mpr ha
    exact (h.takes a hfits).congr (hform a hfits)
  canonical {bytes a rest} hrun := by
    obtain ⟨rfl, ha⟩ := h.canonical hrun
    rw [hform a ha]
    exact ⟨rfl, (hfits a).mp ha⟩

/-- What was read first can be told from what is answered last. -/
theorem Inverts.bind {f : α → Reader β} {form : α → β → List UInt8} {Q : α → β → Prop} (back : β → α)
    (h : Inverts read encode Fits) (hf : ∀ a, Fits a → Inverts (f a) (form a) (Q a))
    (hback : ∀ a b, Fits a → Q a b → back b = a) :
    Inverts (read >>= f) (fun b => encode (back b) ++ form (back b) b) fun b => Fits (back b) ∧ Q (back b) b where
  takes b hb := (h.takes _ hb.1).bind ((hf _ hb.1).takes b hb.2)
  canonical {bytes b rest} hrun := by
    obtain ⟨a, mid, ha, hb⟩ := hrun.of_bind
    obtain ⟨rfl, hfits⟩ := h.canonical ha
    obtain ⟨rfl, hQ⟩ := (hf a hfits).canonical hb
    rw [hback a b hfits hQ, List.append_assoc]
    exact ⟨rfl, hfits, hQ⟩

/-- An answer that is only converted. -/
theorem Inverts.map {f : α → β} (there : β → α) (h : Inverts read encode Fits) (hf : ∀ a, Fits a → there (f a) = a) :
    Inverts (do return f (← read)) (fun b => encode (there b)) fun b => Fits (there b) ∧ b = f (there b) := by
  refine (h.bind (Q := fun a b => b = f a) there (fun a _ => inverts_pure (f a)) ?_).congr ?_ fun _ => Iff.rfl
  · rintro a _ hfits rfl
    exact hf a hfits
  · exact fun b _ => List.append_nil _

/-- An answer that is converted into a type whose values are stored as these are. -/
theorem Inverts.convert {f : α → β} {there : β → α} (h : Inverts read encode Fits) (hthere : ∀ a, there (f a) = a)
    (hback : ∀ b, f (there b) = b) :
    Inverts (do return f (← read)) (fun b => encode (there b)) fun b => Fits (there b) :=
  (h.map there fun a _ => hthere a).congr (fun _ _ => rfl) fun b => and_iff_left (hback b).symm

/-- An answer that is converted if it is one of those that stand for something. -/
theorem Inverts.settle {f : α → Reader β} (there : β → α) (h : Inverts read encode Fits)
    (hf : ∀ a, Inverts (f a) (fun _ => []) fun b => there b = a) :
    Inverts (read >>= f) (fun b => encode (there b)) fun b => Fits (there b) :=
  (h.bind there (fun a _ => hf a) fun _ _ _ heq => heq).congr (fun _ _ => List.append_nil _) fun _ => and_iff_left rfl

theorem Inverts.pair {other : Reader β} {form : β → List UInt8} {Q : β → Prop} (h : Inverts read encode Fits)
    (hother : Inverts other form Q) :
    Inverts (do let a ← read; let b ← other; return (a, b)) (fun v => encode v.1 ++ form v.2)
      fun v => Fits v.1 ∧ Q v.2 := by
  have hrest : ∀ a, Fits a → Inverts (do let b ← other; return (a, b)) (fun v => form v.2)
      fun v => Q v.2 ∧ v = (a, v.2) := fun a _ => hother.map Prod.snd fun _ _ => rfl
  refine (h.bind Prod.fst hrest ?_).congr (fun _ _ => rfl) fun v => and_congr_right fun _ => and_iff_left rfl
  rintro a v - ⟨-, heq⟩
  rw [heq]

/-- A reader may ask first for as much as is taken in any case. -/
theorem Inverts.require (h : Inverts read encode Fits) {needed : Nat}
    (hn : ∀ a, Fits a → needed ≤ (encode a).length) : Inverts (do require needed; read) encode Fits where
  takes a ha := (h.takes a ha).require (hn a ha)
  canonical hrun := by
    obtain ⟨_, mid, hasked, hread⟩ := hrun.of_bind
    obtain ⟨-, rfl⟩ := (runs_require (le_of_runs_require hasked)).unique hasked
    exact h.canonical hread

theorem inverts_take (count : Nat) : Inverts (take count) id fun bytes => bytes.length = count where
  takes bytes h := takes_take h
  canonical {bytes taken rest} hrun := by
    by_cases hcount : count ≤ bytes.length
    · obtain ⟨rfl, rfl⟩ := (runs_take hcount).unique hrun
      exact ⟨(List.take_append_drop count bytes).symm, List.length_take_of_le hcount⟩
    · -- with fewer bytes there is no answer
      have habort : take count bytes = .error .aborted bytes := by
        unfold take
        rw [(Action.runs_get bytes).bind_eq, if_pos (Nat.lt_of_not_le hcount)]
        rfl
      exact absurd (habort.symm.trans hrun) (by simp)

/-- As many values as there should be, one after the other. -/
theorem Inverts.many (h : Inverts read encode Fits) (count : Nat) :
    Inverts (many read count) (fun as => as.flatMap encode) fun as => as.length = count ∧ ∀ a ∈ as, Fits a where
  takes as := by
    rintro ⟨rfl, hfits⟩
    have htakes := takes_many (f := id) fun a ha => h.takes a (hfits a ha)
    rwa [List.map_id] at htakes
  -- the values are taken one by one, each with exactly its own bytes
  canonical {bytes as rest} hrun := by
    induction count generalizing bytes as with
    | zero =>
      obtain ⟨rfl, rfl⟩ := (Action.runs_pure [] bytes).unique hrun
      exact ⟨rfl, rfl, fun _ ha => absurd ha List.not_mem_nil⟩
    | succ count ih =>
      obtain ⟨first, mid, hfirst, hrun⟩ := hrun.of_bind
      obtain ⟨others, last, hothers, hrun⟩ := hrun.of_bind
      obtain ⟨rfl, rfl⟩ := (Action.runs_pure (first :: others) last).unique hrun
      obtain ⟨rfl, hfits⟩ := h.canonical hfirst
      obtain ⟨rfl, hlen, hothers⟩ := ih hothers
      refine ⟨?_, congrArg _ hlen, List.forall_mem_cons.mpr ⟨hfits, hothers⟩⟩
      rw [List.flatMap_cons, List.append_assoc]

theorem inverts_number (width : Nat) :
    Inverts (number width) (Bytes.LittleEndian.ofNat width) (· < Bytes.LittleEndian.count width) := by
  refine ((inverts_take width).map (Bytes.LittleEndian.ofNat width) ?_).congr (fun _ _ => rfl) fun n => ?_
  · rintro bytes rfl
    exact Bytes.LittleEndian.ofNat_toNat bytes
  · constructor
    · rintro ⟨hlen, hn⟩
      have hlt := Bytes.LittleEndian.toNat_lt (Bytes.LittleEndian.ofNat width n)
      rwa [← hn, hlen] at hlt
    · exact fun hn => ⟨Bytes.LittleEndian.length_ofNat width n, (Bytes.LittleEndian.toNat_ofNat hn).symm⟩

/-- Words are stored as the numbers that they are. -/
theorem Inverts.word {number : Reader Nat} {width : Nat}
    (h : Inverts number (Bytes.LittleEndian.ofNat width) (· < Bytes.LittleEndian.count width)) {ofNat : Nat → α}
    {toNat : α → Nat} (hback : ∀ a, ofNat (toNat a) = a) (hlt : ∀ a, toNat a < Bytes.LittleEndian.count width)
    (hthere : ∀ n < Bytes.LittleEndian.count width, toNat (ofNat n) = n) :
    Inverts (do return ofNat (← number)) (fun a => Bytes.LittleEndian.ofNat width (toNat a)) fun _ => True :=
  (h.map toNat hthere).congr (fun _ _ => rfl) fun a => iff_true_intro ⟨hlt a, (hback a).symm⟩

theorem inverts_word64 : Inverts word64 Bytes.ofWord64 fun _ => True :=
  (inverts_number 8).word (fun _ => UInt64.ofNat_toNat) UInt64.toNat_lt fun _ h => UInt64.toNat_ofNat_of_lt' h

end Reader

namespace Codec

open Reader

variable {α β : Type}

theorem inverts_number (width : Nat) :
    Inverts (number width) (Bytes.LittleEndian.ofNat width) (· < Bytes.LittleEndian.count width) :=
  (Reader.inverts_number width).require fun n _ => Nat.le_of_eq (Bytes.LittleEndian.length_ofNat width n).symm

/-! ## Numbers and truth values -/

theorem inverts_uInt8 : Inverts decode (encode : UInt8 → List UInt8) fun _ => True :=
  (inverts_number 1).word (fun _ => UInt8.ofNat_toNat) UInt8.toNat_lt fun _ h => UInt8.toNat_ofNat_of_lt' h

theorem inverts_uInt16 : Inverts decode (encode : UInt16 → List UInt8) fun _ => True :=
  (inverts_number 2).word (fun _ => UInt16.ofNat_toNat) UInt16.toNat_lt fun _ h => UInt16.toNat_ofNat_of_lt' h

theorem inverts_uInt32 : Inverts decode (encode : UInt32 → List UInt8) fun _ => True :=
  (inverts_number 4).word (fun _ => UInt32.ofNat_toNat) UInt32.toNat_lt fun _ h => UInt32.toNat_ofNat_of_lt' h

theorem inverts_uInt64 : Inverts decode (encode : UInt64 → List UInt8) fun _ => True :=
  (inverts_number 8).word (fun _ => UInt64.ofNat_toNat) UInt64.toNat_lt fun _ h => UInt64.toNat_ofNat_of_lt' h

theorem inverts_int8 : Inverts decode (encode : Int8 → List UInt8) fun _ => True :=
  inverts_uInt8.convert UInt8.toUInt8_toInt8 Int8.toInt8_toUInt8

theorem inverts_int16 : Inverts decode (encode : Int16 → List UInt8) fun _ => True :=
  inverts_uInt16.convert UInt16.toUInt16_toInt16 Int16.toInt16_toUInt16

theorem inverts_int32 : Inverts decode (encode : Int32 → List UInt8) fun _ => True :=
  inverts_uInt32.convert UInt32.toUInt32_toInt32 Int32.toInt32_toUInt32

theorem inverts_int64 : Inverts decode (encode : Int64 → List UInt8) fun _ => True :=
  inverts_uInt64.convert UInt64.toUInt64_toInt64 Int64.toInt64_toUInt64

/-- Of all bytes only zero and one are truth values. -/
theorem inverts_bool : Inverts decode (encode : Bool → List UInt8) fun _ => True := by
  refine (inverts_uInt8.settle Bool.toUInt8 fun byte => ?_).congr (fun b _ => by cases b <;> rfl) fun _ => Iff.rfl
  -- zero and one stand for something, and no other byte does
  split
  · subst_vars
    exact (inverts_pure false).congr (fun _ _ => rfl) (by decide)
  · rename_i hzero
    split
    · subst_vars
      exact (inverts_pure true).congr (fun _ _ => rfl) (by decide)
    · rename_i hone
      refine (inverts_fail _ _).congr (fun _ _ => rfl) fun b => iff_of_false id fun heq => ?_
      cases b with
      | false => exact hzero heq.symm
      | true => exact hone heq.symm

/-! ## Byte strings and texts -/

/-- A byte string fits if its length does. -/
theorem inverts_bytes :
    Inverts decode (encode : List UInt8 → List UInt8) fun bytes => bytes.length < 2 ^ 32 := by
  have hrest : ∀ length : Nat, Inverts (do Reader.require length; take length) id fun bytes => bytes.length = length :=
    fun length => (inverts_take length).require fun _ h => Nat.le_of_eq h.symm
  refine ((inverts_number 4).bind List.length (fun length _ => hrest length) fun _ _ _ h => h).congr
    (fun _ _ => rfl) fun bytes => and_iff_left rfl

/-- The bytes that are a text are those of that text. -/
theorem utf8_encode_of_decode? {bytes : List UInt8} {s : String} (h : Text.Utf8.decode? bytes = some s) :
    Text.Utf8.encode s = bytes := by
  unfold Text.Utf8.decode? String.fromUTF8? at h
  split at h
  · obtain rfl := Option.some.inj h
    exact List.toList_data_toByteArray
  · exact absurd h (by simp)

theorem inverts_string :
    Inverts decode (encode : String → List UInt8) fun s => (Text.Utf8.encode s).length < 2 ^ 32 := by
  refine inverts_bytes.settle Text.Utf8.encode fun bytes => ?_
  dsimp only
  split
  · rename_i s hs
    refine (inverts_pure s).congr (fun _ _ => rfl) fun s' => ⟨?_, ?_⟩
    · rintro rfl
      exact utf8_encode_of_decode? hs
    · rintro rfl
      exact Option.some.inj ((utf8_decode?_encode s').symm.trans hs)
  · rename_i hs
    refine (inverts_fail _ _).congr (fun _ _ => rfl) fun s => iff_of_false id ?_
    rintro rfl
    exact absurd ((utf8_decode?_encode s).symm.trans hs) (by simp)

/-! ## Pairs -/

theorem inverts_pair [Codec α] [Codec β] {P : α → Prop} {Q : β → Prop} (h : Inverts decode encode P)
    (h' : Inverts decode encode Q) : Inverts decode (encode : α × β → List UInt8) fun v => P v.1 ∧ Q v.2 :=
  h.pair h'

end Codec

namespace Shape

/-- The lengths of the texts and byte strings in a value can be stored in front of them. -/
def Fits : (s : Shape) → s.Value → Prop
  | str, s => (Text.Utf8.encode s).length < 2 ^ 32
  | bytes, bs => (show List UInt8 from bs).length < 2 ^ 32
  | pair first second, v => first.Fits v.1 ∧ second.Fits v.2
  | _, _ => True

/-- Whatever a shape describes has one stored form. -/
theorem inverts (s : Shape) : Reader.Inverts Codec.decode (Codec.encode : s.Value → List UInt8) s.Fits := by
  induction s with
  | u8 => exact Codec.inverts_uInt8
  | i8 => exact Codec.inverts_int8
  | u16 => exact Codec.inverts_uInt16
  | i16 => exact Codec.inverts_int16
  | u32 => exact Codec.inverts_uInt32
  | i32 => exact Codec.inverts_int32
  | u64 => exact Codec.inverts_uInt64
  | i64 => exact Codec.inverts_int64
  | bool => exact Codec.inverts_bool
  | str => exact Codec.inverts_string
  | bytes => exact Codec.inverts_bytes
  | pair first second hfirst hsecond => exact Codec.inverts_pair hfirst hsecond

end Shape

end PagedIndex
