import PagedIndex.Proofs.Guarded
import PagedIndex.Proofs.Inverting
import PagedIndex.Proofs.Utf8

/-!
# Bytes that are no value

`Shape.Malformed` lists the ways in which bytes fail to start with a value of some shape: they end within a number, a
length goes beyond them, a truth value is neither zero nor one, or the bytes of a text are no text; a pair is malformed
in one of its parts. Each way comes with the error that names it and with the bytes that are left then.

The reader of a shape answers in front of what is stored of a value, refuses what is malformed, and does nothing else
(`Shape.decode_exact`). Answers are settled by `Shape.inverts`, and `Shape.guardedCodec` leaves nothing but failures
beside them. That malformed bytes are refused goes by cases on the way in which they are (`Malformed.fails`), and that
no others are by induction on the shape (`malformed_of_fails`).
-/

namespace PagedIndex

namespace Codec

open Reader

variable {bytes rest : List UInt8} {e : IoError} {width : Nat}

theorem encode_uInt8 (byte : UInt8) : encode byte = [byte] := Bytes.LittleEndian.ofNat_one byte

theorem fails_number_iff : Action.Fails (number width) bytes e rest
    ↔ bytes.length < width ∧ e = .truncated bytes.length width ∧ rest = bytes :=
  fails_asking_iff fun _ h => ⟨_, _, (runs_take h).bind (Action.runs_pure _ _)⟩

theorem fails_number (h : bytes.length < width) :
    Action.Fails (number width) bytes (.truncated bytes.length width) bytes :=
  fails_number_iff.mpr ⟨h, rfl, rfl⟩

theorem utf8_decode?_eq_none_iff {raw : List UInt8} : Text.Utf8.decode? raw = none ↔ ¬ Text.Utf8.IsText raw := by
  constructor
  · rintro hnone ⟨text, rfl⟩
    rw [utf8_decode?_encode] at hnone
    exact Option.some_ne_none _ hnone
  · intro hraw
    exact Option.eq_none_iff_forall_ne_some.mpr fun text htext => hraw ⟨text, utf8_encode_of_decode? htext⟩

end Codec

namespace Shape

open PagedIndex.Action

/-- How many bytes come first and have a meaning of their own: those of a number or of a truth value, or of the length
of a text or byte string. A pair has none in front of its parts. -/
def lead : Shape → Nat
  | u8 | i8 | bool => 1
  | u16 | i16 => 2
  | u32 | i32 | str | bytes => 4
  | u64 | i64 => 8
  | pair _ _ => 0

/-- The bytes start with no value of the shape; the error says why, and the bytes named last are left. -/
inductive Malformed : Shape → List UInt8 → IoError → List UInt8 → Prop where
  /-- The bytes end within a number, or within a length. -/
  | truncated {s : Shape} {input : List UInt8} :
      input.length < s.lead → Malformed s input (.truncated input.length s.lead) input
  /-- A truth value is stored as neither zero nor one. -/
  | notTruth {byte : UInt8} {rest : List UInt8} :
      1 < byte → Malformed bool (byte :: rest) (.invalidBool byte) rest
  /-- The length of a text or byte string is larger than the number of bytes behind it. -/
  | overrun {s : Shape} {length : Nat} {rest : List UInt8} :
      s = str ∨ s = bytes → length < 2 ^ 32 → rest.length < length →
      Malformed s (Bytes.LittleEndian.ofNat 4 length ++ rest) (.truncated rest.length length) rest
  /-- The bytes of a text are those of no text, and break off where the error says. -/
  | notText {raw rest : List UInt8} {start : Nat} {length : Option Nat} :
      raw.length < 2 ^ 32 → Text.Utf8.BreaksAt raw start length →
      Malformed str (Bytes.LittleEndian.ofNat 4 raw.length ++ raw ++ rest) (.illFormedText start length) rest
  /-- A pair is malformed in its first part. -/
  | first {s t : Shape} {input rest : List UInt8} {e : IoError} :
      s.Malformed input e rest → (pair s t).Malformed input e rest
  /-- A pair is malformed in its second part, behind a value for the first. -/
  | second {s t : Shape} {v : s.Value} {input rest : List UInt8} {e : IoError} :
      s.Fits v → t.Malformed input e rest → (pair s t).Malformed (Codec.encode v ++ input) e rest

/-! ## Malformed bytes are refused -/

namespace Malformed

variable {s : Shape} {input rest : List UInt8} {e : IoError}

theorem kind_eq (h : s.Malformed input e rest) : e.kind = .invalidData := by
  induction h with
  | first _ ih => exact ih
  | second _ _ ih => exact ih
  | _ => rfl

/-- What is left are the last of the bytes that were there. -/
theorem suffix (h : s.Malformed input e rest) : rest <:+ input := by
  induction h with
  | truncated _ => exact List.suffix_refl _
  | notTruth _ => exact List.suffix_cons _ _
  | overrun _ _ _ => exact List.suffix_append _ _
  | notText _ _ => exact List.suffix_append _ _
  | first _ ih => exact ih
  | second _ _ ih => exact ih.trans (List.suffix_append _ _)

theorem fails (h : s.Malformed input e rest) : Fails (Codec.decode : Reader s.Value) input e rest := by
  induction h with
  | @truncated s input hshort =>
    -- one number is read first, and converted once or twice
    cases s with
    | u8 | u16 | u32 | u64 | bytes => exact (Codec.fails_number hshort).bind _
    | i8 | i16 | i32 | i64 | bool | str => exact ((Codec.fails_number hshort).bind _).bind _
    | pair => exact absurd hshort (Nat.not_lt_zero _)
  | @notTruth byte rest hbyte =>
    have hzero : byte ≠ 0 := by
      rintro rfl
      exact absurd hbyte (by decide)
    have hone : byte ≠ 1 := by
      rintro rfl
      exact absurd hbyte (by decide)
    have hread := Codec.inverts_uInt8.takes byte trivial rest
    rw [Codec.encode_uInt8] at hread
    refine hread.fails ?_
    rw [if_neg hzero, if_neg hone]
    exact fails_fail _ _
  | @overrun s length rest hs hlength hshort =>
    have hbytes : Fails (Codec.decode : Reader (List UInt8)) (Bytes.LittleEndian.ofNat 4 length ++ rest)
        (.truncated rest.length length) rest :=
      (Codec.takes_number hlength rest).fails ((Reader.fails_require hshort).bind _)
    rcases hs with rfl | rfl
    · exact hbytes.bind _
    · exact hbytes
  | @notText raw rest start length hraw hbreaks =>
    have hnone := Codec.utf8_decode?_eq_none_iff.mpr hbreaks.not_isText
    obtain ⟨rfl, rfl⟩ := hbreaks.unique (Text.Utf8.breaksAt_fault hbreaks.not_isText)
    refine (Codec.inverts_bytes.takes raw hraw rest).fails ?_
    dsimp only
    rw [hnone]
    exact fails_fail _ _
  | first _ ih => exact ih.bind _
  | @second s t v input rest e hv _ ih => exact (s.inverts.takes v hv input).fails (ih.bind _)

end Malformed

/-! ## Nothing else is refused -/

variable {input rest : List UInt8} {e : IoError}

theorem malformed_of_fails_bytes {s : Shape} (hs : s = str ∨ s = bytes)
    (h : Fails (Codec.decode : Reader (List UInt8)) input e rest) : s.Malformed input e rest := by
  obtain hlength | ⟨length, behind, hlength, hbehind⟩ := h.of_bind
  · obtain ⟨hshort, rfl, rfl⟩ := Codec.fails_number_iff.mp hlength
    rcases hs with rfl | rfl <;> exact .truncated hshort
  · obtain ⟨rfl, hfits⟩ := (Codec.inverts_number 4).canonical hlength
    obtain ⟨hshort, rfl, rfl⟩ := (Reader.fails_asking_iff fun _ h => ⟨_, _, Reader.runs_take h⟩).mp hbehind
    exact .overrun hs hfits hshort

/-- A reader fails in the first of its parts that does not answer, and what the parts before it took is known. -/
theorem malformed_of_fails {s : Shape} (h : Fails (Codec.decode : Reader s.Value) input e rest) :
    s.Malformed input e rest := by
  induction s generalizing input e rest with
  | u8 | u16 | u32 | u64 =>
    obtain ⟨hshort, rfl, rfl⟩ := Codec.fails_number_iff.mp h.of_map
    exact .truncated hshort
  | i8 | i16 | i32 | i64 =>
    obtain ⟨hshort, rfl, rfl⟩ := Codec.fails_number_iff.mp h.of_map.of_map
    exact .truncated hshort
  | bool =>
    obtain hbyte | ⟨byte, behind, hbyte, hvalue⟩ := h.of_bind
    · obtain ⟨hshort, rfl, rfl⟩ := Codec.fails_number_iff.mp hbyte.of_map
      exact .truncated hshort
    · obtain ⟨rfl, -⟩ := Codec.inverts_uInt8.canonical hbyte
      split at hvalue
      · exact absurd (runs_pure _ _) hvalue.not_runs
      · rename_i hzero
        split at hvalue
        · exact absurd (runs_pure _ _) hvalue.not_runs
        · rename_i hone
          obtain ⟨rfl, rfl⟩ := hvalue.unique (fails_fail _ _)
          rw [Codec.encode_uInt8]
          exact .notTruth (by grind)
  | str =>
    obtain hraw | ⟨raw, behind, hraw, hvalue⟩ := h.of_bind
    · exact malformed_of_fails_bytes (.inl rfl) hraw
    · obtain ⟨rfl, hfits⟩ := Codec.inverts_bytes.canonical hraw
      dsimp only at hvalue
      split at hvalue
      · exact absurd (runs_pure _ _) hvalue.not_runs
      · rename_i hnone
        obtain ⟨rfl, rfl⟩ := hvalue.unique (fails_fail _ _)
        exact .notText hfits (Text.Utf8.breaksAt_fault (Codec.utf8_decode?_eq_none_iff.mp hnone))
  | bytes => exact malformed_of_fails_bytes (.inr rfl) h
  | pair first second hfirst hsecond =>
    obtain hv | ⟨v, behind, hv, hw⟩ := h.of_bind
    · exact .first (hfirst hv)
    · obtain ⟨rfl, hfits⟩ := first.inverts.canonical hv
      exact .second hfits (hsecond hw.of_map)

/-! ## Stored forms that begin alike, or are cut -/

/-- No stored form is the beginning of another one. -/
theorem eq_of_prefix_encode {s : Shape} {v w : s.Value} (hv : s.Fits v) (hw : s.Fits w)
    (h : Codec.encode v <+: Codec.encode w) : v = w := by
  obtain ⟨rest, h⟩ := h
  have hrun := s.inverts.takes v hv rest
  have hrun' := s.inverts.takes w hw []
  rw [List.append_nil, ← h] at hrun'
  exact (hrun.unique hrun').1

/-- The bytes were cut short, and that is what the error says. -/
def CutShort (s : Shape) (input : List UInt8) : Prop :=
  ∃ left needed rest, left < needed ∧ s.Malformed input (.truncated left needed) rest

theorem cutShort_of_length_lt {s : Shape} (h : input.length < s.lead) : s.CutShort input :=
  ⟨_, _, _, h, .truncated h⟩

theorem cutShort_take_of_length_eq {s : Shape} {stored : List UInt8} {n : Nat} (hstored : stored.length = s.lead)
    (hn : n < stored.length) : s.CutShort (stored.take n) := by
  refine cutShort_of_length_lt ?_
  rwa [List.length_take_of_le (Nat.le_of_lt hn), ← hstored]

/-- A byte string is cut within its length, or behind it. -/
theorem cutShort_take_bytes {s : Shape} (hs : s = str ∨ s = bytes) {raw : List UInt8} {n : Nat}
    (hraw : raw.length < 2 ^ 32) (hn : n < (Codec.encode raw).length) : s.CutShort ((Codec.encode raw).take n) := by
  have hlength := Bytes.LittleEndian.length_ofNat 4 raw.length
  have hlead : s.lead = 4 := by rcases hs with rfl | rfl <;> rfl
  replace hn : n < (Bytes.LittleEndian.ofNat 4 raw.length ++ raw).length := hn
  rw [List.length_append, hlength] at hn
  show s.CutShort ((Bytes.LittleEndian.ofNat 4 raw.length ++ raw).take n)
  by_cases hshort : n < 4
  · rw [List.take_append_of_le_length (by omega)]
    exact cutShort_take_of_length_eq (hlength.trans hlead.symm) (by omega)
  · obtain ⟨k, rfl⟩ := Nat.exists_eq_add_of_le (Nat.not_lt.mp hshort)
    have hcut : (Bytes.LittleEndian.ofNat 4 raw.length ++ raw).take (4 + k)
        = Bytes.LittleEndian.ofNat 4 raw.length ++ raw.take k := by
      rw [← List.take_length_add_append, hlength]
    have hleft : (raw.take k).length < raw.length := by
      rw [List.length_take]
      omega
    rw [hcut]
    exact ⟨_, _, _, hleft, .overrun hs hraw hleft⟩

/-- A stored form that is cut anywhere is noticed to be cut short. -/
theorem cutShort_take {s : Shape} {v : s.Value} {n : Nat} (hv : s.Fits v) (hn : n < (Codec.encode v).length) :
    s.CutShort ((Codec.encode v).take n) := by
  induction s generalizing n with
  | u8 | i8 | u16 | i16 | u32 | i32 | u64 | i64 =>
    exact cutShort_take_of_length_eq (Bytes.LittleEndian.length_ofNat _ _) hn
  | bool => exact cutShort_take_of_length_eq rfl hn
  | str => exact cutShort_take_bytes (.inl rfl) hv hn
  | bytes => exact cutShort_take_bytes (.inr rfl) hv hn
  | pair first second hfirst hsecond =>
    obtain ⟨a, b⟩ := v
    replace hn : n < (Codec.encode a ++ Codec.encode b).length := hn
    rw [List.length_append] at hn
    show (pair first second).CutShort ((Codec.encode a ++ Codec.encode b).take n)
    by_cases hcut : n < (Codec.encode a).length
    · rw [List.take_append_of_le_length (Nat.le_of_lt hcut)]
      obtain ⟨left, needed, rest, hlt, h⟩ := hfirst hv.1 hcut
      exact ⟨left, needed, rest, hlt, .first h⟩
    · obtain ⟨k, rfl⟩ := Nat.exists_eq_add_of_le (Nat.not_lt.mp hcut)
      rw [List.take_length_add_append]
      obtain ⟨left, needed, rest, hlt, h⟩ := hsecond hv.2 (Nat.lt_of_add_lt_add_left hn)
      exact ⟨left, needed, rest, hlt, .second hv.1 h⟩

/-! ## Reading and storing -/

/-- Let values have any shape. In front of any bytes, what is stored of a value is read as that value, and the bytes
behind it are left. Nothing else is read as that value, and what is stored of one value is not the beginning of what is
stored of another. All other bytes are refused as invalid data, with the error and the bytes left that `Malformed` says,
and nothing behind their end is looked at. Whatever `Malformed` lists is refused, and so is what is stored of a value
and then cut anywhere, because bytes are missing. -/
theorem decode_exact (s : Shape) :
    let read : Reader s.Value := Codec.decode
    (∀ (v : s.Value) rest, s.Fits v → read (Codec.encode v ++ rest) = .ok v rest)
      ∧ (∀ input v rest, read input = .ok v rest → input = Codec.encode v ++ rest ∧ s.Fits v)
      ∧ (∀ v w : s.Value, s.Fits v → s.Fits w → v ≠ w → ¬ Codec.encode v <+: Codec.encode w)
      ∧ (∀ input, (∃ (v : s.Value) (rest : List UInt8), s.Fits v ∧ input = Codec.encode v ++ rest)
        ∨ ∃ error rest, read input = .error (.failed error) rest ∧ s.Malformed input error rest
          ∧ error.kind = .invalidData ∧ rest <:+ input)
      ∧ (∀ input error rest, s.Malformed input error rest → read input = .error (.failed error) rest)
      ∧ ∀ (v : s.Value) n, s.Fits v → n < (Codec.encode v).length → s.CutShort ((Codec.encode v).take n) := by
  intro read
  refine ⟨fun v rest hv => s.inverts.takes v hv rest, fun input v rest h => s.inverts.canonical h,
    fun v w hv hw hne h => hne (eq_of_prefix_encode hv hw h), fun input => ?_, fun input error rest h => h.fails,
    fun v n hv hn => cutShort_take hv hn⟩
  obtain ⟨v, rest, hrun, -⟩ | ⟨error, rest, hfails⟩ := (GuardedCodec.guarded (α := s.Value) input).runs_or_fails
  · obtain ⟨hinput, hfits⟩ := s.inverts.canonical hrun
    exact .inl ⟨v, rest, hfits, hinput⟩
  · have hmalformed := malformed_of_fails hfails
    exact .inr ⟨error, rest, hfails, hmalformed, hmalformed.kind_eq, hmalformed.suffix⟩

/-- A number and a text, and behind them a truth value and a byte string. -/
def nested : Shape := pair (pair i64 str) (pair bool bytes)

def nestedValue : nested.Value := (((-2 : Int64), "ab"), (true, [7, 8]))

/-- The same value with one byte more. -/
def nestedLonger : nested.Value := (((-2 : Int64), "ab"), (true, [7, 8, 9]))

/-- What is stored of the number and the text. -/
def nestedFront : List UInt8 := [254, 255, 255, 255, 255, 255, 255, 255, 2, 0, 0, 0, 97, 98]

/-- The first value is read back, and what is stored of it does not begin what is stored of the second one. With nine
for the length of the byte string seven bytes are missing, and without the last byte one is. -/
theorem decode_exact_nested :
    (nested.Fits nestedValue ∧ nested.Fits nestedLonger ∧ nestedValue ≠ nestedLonger)
      ∧ Codec.encode nestedValue = nestedFront ++ [1, 2, 0, 0, 0, 7, 8]
      ∧ (Codec.decode : Reader nested.Value) (nestedFront ++ [1, 2, 0, 0, 0, 7, 8] ++ [9]) = .ok nestedValue [9]
      ∧ ¬ Codec.encode nestedValue <+: Codec.encode nestedLonger
      ∧ (Codec.decode : Reader nested.Value) (nestedFront ++ [1, 9, 0, 0, 0, 7, 8])
        = .error (.failed (.truncated 2 9)) [7, 8]
      ∧ nested.CutShort (nestedFront ++ [1, 2, 0, 0, 0, 7]) := by
  have hfits : nested.Fits nestedValue := by
    show (True ∧ (Text.Utf8.encode "ab").length < 2 ^ 32) ∧ True ∧ [(7 : UInt8), 8].length < 2 ^ 32
    decide +kernel
  have hlonger : nested.Fits nestedLonger := by
    show (True ∧ (Text.Utf8.encode "ab").length < 2 ^ 32) ∧ True ∧ [(7 : UInt8), 8, 9].length < 2 ^ 32
    decide +kernel
  have hne : nestedValue ≠ nestedLonger := by
    intro h
    have hbytes : [(7 : UInt8), 8] = [7, 8, 9] := congrArg (fun v : nested.Value => v.2.2) h
    exact absurd hbytes (by decide)
  have hstored : Codec.encode nestedValue = nestedFront ++ [1, 2, 0, 0, 0, 7, 8] := by decide +kernel
  have hfront : Codec.encode nestedValue.1 = nestedFront := by decide +kernel
  obtain ⟨htakes, -, hprefix, -, hrefused, hcut⟩ := decode_exact nested
  refine ⟨⟨hfits, hlonger, hne⟩, hstored, ?_, hprefix _ _ hfits hlonger hne, ?_, ?_⟩
  · rw [← hstored]
    exact htakes nestedValue [9] hfits
  · rw [← hfront]
    have hoverrun : bytes.Malformed [9, 0, 0, 0, 7, 8] (.truncated 2 9) [7, 8] :=
      .overrun (.inr rfl) (by decide) (by decide)
    exact hrefused _ _ _ (.second hfits.1 (.second (s := bool) (v := true) trivial hoverrun))
  · have htaken := hcut nestedValue 20 hfits (by rw [hstored]; decide)
    rwa [hstored] at htaken

end Shape

end PagedIndex
