import PagedIndex.Proofs.Taking
import PagedIndex.Value.Shape

/-!
# Values are read back

What was stored of a value is what its reader takes, whatever comes behind it. `LawfulCodec` demands this of a
type, as far as the stored form is short enough for its length to be stored, and every type of keys and items that
a shape describes keeps to it. `LawfulKey` is what is demanded of keys in all.
-/

namespace PagedIndex

/-- A type whose values are read back from their stored form. -/
class LawfulCodec (α : Type) [Codec α] : Prop where
  takes_encode : ∀ a : α, (Codec.encode a).length < 2 ^ 32 → Reader.Takes Codec.decode (Codec.encode a) a

/-- A type of keys that are in order, are read back, and hash alike where they are equal. -/
class LawfulKey (K : Type) [IndexKey K] : Prop extends Std.TransOrd K, LawfulCodec K where
  hashInput_congr : ∀ a b : K, compare a b = .eq → hashInput a = hashInput b

namespace Codec

open Reader

variable {α β : Type}

theorem takes_number_mod (width n : Nat) :
    Takes (number width) (Bytes.LittleEndian.ofNat width n) (n % Bytes.LittleEndian.count width) :=
  (Reader.takes_number_mod width n).require (Nat.le_of_eq (Bytes.LittleEndian.length_ofNat width n).symm)

theorem takes_number {width n : Nat} (h : n < Bytes.LittleEndian.count width) :
    Takes (number width) (Bytes.LittleEndian.ofNat width n) n := by
  have hmod := takes_number_mod width n
  rwa [Nat.mod_eq_of_lt h] at hmod

/-! ## Numbers -/

instance : LawfulCodec UInt8 where
  takes_encode n _ := (takes_number n.toNat_lt).map (by rw [UInt8.ofNat_toNat])

instance : LawfulCodec UInt16 where
  takes_encode n _ := (takes_number n.toNat_lt).map (by rw [UInt16.ofNat_toNat])

instance : LawfulCodec UInt32 where
  takes_encode n _ := (takes_number n.toNat_lt).map (by rw [UInt32.ofNat_toNat])

instance : LawfulCodec UInt64 where
  takes_encode n _ := (takes_number n.toNat_lt).map (by rw [UInt64.ofNat_toNat])

/-- A value that is stored as another one is read back as that one is. -/
theorem takes_converted [Codec β] [LawfulCodec β] {a : α} {there : α → β} {back : β → α}
    (hback : back (there a) = a) (h : (encode (there a)).length < 2 ^ 32) :
    Takes (do return back (← decode)) (encode (there a)) a :=
  (LawfulCodec.takes_encode (there a) h).map (by rw [hback])

instance : LawfulCodec Int8 where
  takes_encode n h := takes_converted n.toInt8_toUInt8 h

instance : LawfulCodec Int16 where
  takes_encode n h := takes_converted n.toInt16_toUInt16 h

instance : LawfulCodec Int32 where
  takes_encode n h := takes_converted n.toInt32_toUInt32 h

instance : LawfulCodec Int64 where
  takes_encode n h := takes_converted n.toInt64_toUInt64 h

instance : LawfulCodec Bool where
  takes_encode b _ := by
    have hbyte := LawfulCodec.takes_encode (if b then 1 else 0 : UInt8) (by simp [encode])
    refine (hbyte.congr ?_).map ?_
    · cases b <;> rfl
    · cases b <;> rfl

/-! ## Byte strings and texts -/

instance : LawfulCodec (List UInt8) where
  takes_encode bytes h := by
    have hlen : bytes.length < Bytes.LittleEndian.count 4 := by
      refine Nat.lt_of_le_of_lt ?_ h
      show bytes.length ≤ (Bytes.LittleEndian.ofNat 4 bytes.length ++ bytes).length
      rw [List.length_append]
      exact Nat.le_add_left _ _
    exact (takes_number hlen).bind ((takes_take rfl).require (Nat.le_refl _))

/-- The bytes of a text are that text. -/
theorem utf8_decode?_encode (s : String) : Text.Utf8.decode? (Text.Utf8.encode s) = some s := by
  have hbytes : (Text.Utf8.encode s).toByteArray = s.toByteArray :=
    ByteArray.ext (Array.ext' List.toList_data_toByteArray)
  unfold Text.Utf8.decode?
  rw [hbytes, String.fromUTF8?, dif_pos s.isValidUTF8]
  rfl

instance : LawfulCodec String where
  takes_encode s h := by
    refine (LawfulCodec.takes_encode (Text.Utf8.encode s) h).map ?_
    dsimp only
    rw [utf8_decode?_encode]

/-! ## Pairs -/

instance [Codec α] [Codec β] [LawfulCodec α] [LawfulCodec β] : LawfulCodec (α × β) where
  takes_encode v h := by
    have hlen : (encode v.1).length + (encode v.2).length < 2 ^ 32 := by
      rw [← List.length_append]
      exact h
    refine (LawfulCodec.takes_encode v.1 (by omega)).bind ?_
    exact (LawfulCodec.takes_encode v.2 (by omega)).map rfl

end Codec

/-! ## How many values fit -/

section

variable {α : Type} [Codec α]

/-- Values that take up room are no more than the bytes they take up. -/
theorem length_le_of_ne_nil {as : List α} (h : ∀ a ∈ as, Codec.encode a ≠ []) :
    as.length ≤ (as.flatMap Codec.encode).length := by
  induction as with
  | nil => exact Nat.le_refl 0
  | cons a as ih =>
    have hrest := ih fun b hb => h b (List.mem_cons_of_mem a hb)
    have hpos := List.length_pos_iff.mpr (h a List.mem_cons_self)
    rw [List.flatMap_cons, List.length_append, List.length_cons]
    omega

variable [LawfulCodec α]

/-- At most one value takes up no room. -/
theorem eq_of_encode_eq_nil {a b : α} (ha : Codec.encode a = []) (hb : Codec.encode b = []) : a = b := by
  have hshort : ([] : List UInt8).length < 2 ^ 32 := by decide
  have hta := LawfulCodec.takes_encode a (by rwa [ha]) []
  have htb := LawfulCodec.takes_encode b (by rwa [hb]) []
  rw [ha] at hta
  rw [hb] at htb
  exact (hta.unique htb).1

theorem length_le_of_nodup {as : List α} (h : as.Nodup) : as.length ≤ (as.flatMap Codec.encode).length + 1 := by
  induction as with
  | nil => exact Nat.zero_le _
  | cons a as ih =>
    obtain ⟨ha, has⟩ := List.nodup_cons.mp h
    rw [List.flatMap_cons, List.length_append, List.length_cons]
    by_cases hnil : Codec.encode a = []
    · have hothers : as.length ≤ (as.flatMap Codec.encode).length :=
        length_le_of_ne_nil fun b hb hb' => ha (eq_of_encode_eq_nil hnil hb' ▸ hb)
      omega
    · have hpos := List.length_pos_iff.mpr hnil
      have hrest := ih has
      omega

end

/-! ## Keys -/

/-- Where equal keys are the same key, they hash alike. -/
theorem hashInput_congr_of_eq {K : Type} [IndexKey K] [Std.LawfulEqOrd K] (a b : K) (h : compare a b = .eq) :
    hashInput a = hashInput b := by
  rw [Std.LawfulEqOrd.eq_of_compare h]

instance : LawfulKey UInt8 := { hashInput_congr := hashInput_congr_of_eq }

instance : LawfulKey UInt16 := { hashInput_congr := hashInput_congr_of_eq }

instance : LawfulKey UInt32 := { hashInput_congr := hashInput_congr_of_eq }

instance : LawfulKey UInt64 := { hashInput_congr := hashInput_congr_of_eq }

instance : LawfulKey Int8 := { hashInput_congr := hashInput_congr_of_eq }

instance : LawfulKey Int16 := { hashInput_congr := hashInput_congr_of_eq }

instance : LawfulKey Int32 := { hashInput_congr := hashInput_congr_of_eq }

instance : LawfulKey Int64 := { hashInput_congr := hashInput_congr_of_eq }

instance : LawfulKey Bool := { hashInput_congr := hashInput_congr_of_eq }

instance : LawfulKey String := { hashInput_congr := hashInput_congr_of_eq }

instance : LawfulKey (List UInt8) := { hashInput_congr := hashInput_congr_of_eq }

instance {α β : Type} [IndexKey α] [IndexKey β] [LawfulKey α] [LawfulKey β] : LawfulKey (α × β) where
  hashInput_congr a b h := by
    obtain ⟨hfirst, hsecond⟩ := Ordering.then_eq_eq.mp h
    exact congrArg₂ (· ++ ·) (LawfulKey.hashInput_congr _ _ hfirst) (LawfulKey.hashInput_congr _ _ hsecond)

namespace Shape

/-- Whatever a shape describes can be a key. -/
instance lawfulKey : (s : Shape) → LawfulKey s.Value
  | u8 => inferInstanceAs (LawfulKey UInt8)
  | i8 => inferInstanceAs (LawfulKey Int8)
  | u16 => inferInstanceAs (LawfulKey UInt16)
  | i16 => inferInstanceAs (LawfulKey Int16)
  | u32 => inferInstanceAs (LawfulKey UInt32)
  | i32 => inferInstanceAs (LawfulKey Int32)
  | u64 => inferInstanceAs (LawfulKey UInt64)
  | i64 => inferInstanceAs (LawfulKey Int64)
  | bool => inferInstanceAs (LawfulKey Bool)
  | str => inferInstanceAs (LawfulKey String)
  | bytes => inferInstanceAs (LawfulKey (List UInt8))
  | pair first second =>
    have := first.lawfulKey
    have := second.lawfulKey
    inferInstanceAs (LawfulKey (first.Value × second.Value))

end Shape

end PagedIndex
