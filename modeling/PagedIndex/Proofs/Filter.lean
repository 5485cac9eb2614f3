import PagedIndex.BloomFilter
import PagedIndex.Proofs.Taking
import Mathlib.Data.List.Basic

/-!
# Filters do not deny what they were given

A key that was added to a filter is never denied, whatever is added after it (`contains_insert`,
`contains_insert_of_contains`), and a stored filter is read back as it was. All of this is argued bit by bit: a
filter loses no bit, and adding a key sets its bits. Nothing is used of the hash but that it is a function.
-/

namespace PagedIndex.BloomFilter

variable {K L : Type} [HashInput K] [HashInput L]

/-! ## Bits of a word -/

theorem shifted_eq_testBit (word : UInt64) {i : Nat} (hi : i < 64) :
    ((word >>> UInt64.ofNat i) &&& 1 == 1) = word.toNat.testBit i := by
  have hlow : ((word >>> UInt64.ofNat i) &&& 1).toNat = word.toNat >>> i % 2 := by
    rw [UInt64.toNat_and, UInt64.toNat_shiftRight, UInt64.toNat_ofNat_of_lt' (Nat.lt_trans hi (by decide)),
      Nat.mod_eq_of_lt hi]
    exact Nat.and_one_is_mod _
  rw [Nat.testBit_eq_decide_div_mod_eq, ← Nat.shiftRight_eq_div_pow, ← hlow, Bool.eq_iff_iff, beq_iff_eq,
    decide_eq_true_iff, ← UInt64.toNat_inj]
  rfl

/-- Setting a bit sets this one and keeps the others. -/
theorem testBit_setBit (word : UInt64) {i : Nat} (hi : i < 64) (j : Nat) :
    (word ||| (1 <<< UInt64.ofNat i)).toNat.testBit j = (decide (j = i) || word.toNat.testBit j) := by
  have hone : ((1 : UInt64) <<< UInt64.ofNat i).toNat = 2 ^ i := by
    rw [UInt64.toNat_shiftLeft, UInt64.toNat_ofNat_of_lt' (Nat.lt_trans hi (by decide)), Nat.mod_eq_of_lt hi]
    show 1 <<< i % 2 ^ 64 = 2 ^ i
    rw [Nat.one_shiftLeft, Nat.mod_eq_of_lt (Nat.pow_lt_pow_right (by omega) hi)]
  rw [UInt64.toNat_or, hone, Nat.testBit_or, Nat.testBit_two_pow, Bool.or_comm]
  by_cases h : i = j
  · simp [h]
  · simp [h, Ne.symm h]

/-! ## Bits of a filter -/

/-- Whether the filter has a bit set. -/
def hasBit (filter : BloomFilter) (bit : Nat) : Bool :=
  if h : bit / 64 < filter.words.size then isSet filter.words bit h else false

theorem contains_eq (filter : BloomFilter) (key : K) : filter.contains key
    = (List.range filter.hashes).all fun i => filter.hasBit (filter.bitIndex key i) := by
  unfold contains hasBit
  simp only [dif_pos (filter.bitIndex_lt key _)]

theorem hasBit_mark (filter : BloomFilter) (key : K) (i bit : Nat) :
    (filter.mark key i).hasBit bit = (decide (bit = filter.bitIndex key i) || filter.hasBit bit) := by
  have hsize : (filter.mark key i).words.size = filter.words.size := by
    unfold mark
    exact Array.size_set (filter.bitIndex_lt key i)
  have hin := filter.bitIndex_lt key i
  by_cases hbit : bit / 64 < filter.words.size
  · unfold hasBit
    rw [dif_pos (hsize ▸ hbit), dif_pos hbit, isSet, isSet,
      shifted_eq_testBit _ (Nat.mod_lt _ (by omega)), shifted_eq_testBit _ (Nat.mod_lt _ (by omega))]
    unfold mark
    dsimp only
    rw [Array.getElem_set]
    by_cases hword : filter.bitIndex key i / 64 = bit / 64
    · rw [if_pos hword, testBit_setBit _ (Nat.mod_lt _ (by omega))]
      have heq : bit % 64 = filter.bitIndex key i % 64 ↔ bit = filter.bitIndex key i := by omega
      simp only [heq, hword]
    · have hne : bit ≠ filter.bitIndex key i := fun h => hword (by rw [h])
      rw [if_neg hword, decide_eq_false hne, Bool.false_or]
  · unfold hasBit
    have hne : bit ≠ filter.bitIndex key i := fun h => hbit (h ▸ hin)
    rw [dif_neg (hsize ▸ hbit), dif_neg hbit, decide_eq_false hne]
    rfl

/-! ## Adding keys -/

/-- Marking by some of the hashes sets their bits and keeps the shape of the filter. -/
theorem foldl_mark (key : K) (hashes : List Nat) (filter : BloomFilter) :
    (hashes.foldl (fun f i => f.mark key i) filter).bits = filter.bits
      ∧ (hashes.foldl (fun f i => f.mark key i) filter).hashes = filter.hashes
      ∧ ∀ bit, (hashes.foldl (fun f i => f.mark key i) filter).hasBit bit
        = (hashes.any (fun i => decide (bit = filter.bitIndex key i)) || filter.hasBit bit) := by
  induction hashes generalizing filter with
  | nil => exact ⟨rfl, rfl, fun bit => rfl⟩
  | cons i hashes ih =>
    obtain ⟨hbits, hhashes, hbit⟩ := ih (filter.mark key i)
    refine ⟨hbits, hhashes, fun bit => ?_⟩
    rw [List.foldl_cons, hbit, hasBit_mark, List.any_cons, ← Bool.or_assoc,
      Bool.or_comm (decide (bit = filter.bitIndex key i))]
    rfl

theorem hashes_insert (filter : BloomFilter) (key : K) : (filter.insert key).hashes = filter.hashes :=
  (foldl_mark key _ filter).2.1

/-- The bits of a key are where they were. -/
theorem bitIndex_insert (filter : BloomFilter) (key : K) (other : L) (i : Nat) :
    (filter.insert key).bitIndex other i = filter.bitIndex other i := by
  have hbits : (filter.insert key).bits = filter.bits := (foldl_mark key _ filter).1
  unfold bitIndex
  rw [hbits]

theorem hasBit_insert (filter : BloomFilter) (key : K) (bit : Nat) : (filter.insert key).hasBit bit
    = ((List.range filter.hashes).any (fun i => decide (bit = filter.bitIndex key i)) || filter.hasBit bit) :=
  (foldl_mark key _ filter).2.2 bit

/-- A key that was added is not denied. -/
theorem contains_insert (filter : BloomFilter) (key : K) : (filter.insert key).contains key = true := by
  rw [contains_eq, hashes_insert, List.all_eq_true]
  intro i hi
  rw [bitIndex_insert, hasBit_insert, Bool.or_eq_true, List.any_eq_true]
  exact .inl ⟨i, hi, by simp⟩

/-- A key that is not denied stays so, whatever is added. -/
theorem contains_insert_of_contains {filter : BloomFilter} {key : K} (h : filter.contains key = true)
    (other : L) : (filter.insert other).contains key = true := by
  rw [contains_eq, List.all_eq_true] at h ⊢
  intro i hi
  rw [hashes_insert] at hi
  rw [bitIndex_insert, hasBit_insert, h i hi, Bool.or_true]

/-- Of the keys that were added one after the other, none is denied. -/
theorem contains_foldl_insert {keys : List K} {key : K} {filter : BloomFilter}
    (h : key ∈ keys ∨ filter.contains key = true) : (keys.foldl insert filter).contains key = true := by
  induction keys generalizing filter with
  | nil => exact h.resolve_left List.not_mem_nil
  | cons k keys ih =>
    rw [List.foldl_cons]
    refine ih ?_
    rcases h with h | h
    · rcases List.mem_cons.mp h with rfl | h
      · exact .inr (contains_insert filter key)
      · exact .inl h
    · exact .inr (contains_insert_of_contains h k)

/-- Keys that hash alike are treated alike. -/
theorem contains_congr {filter : BloomFilter} {a b : K} (h : hashInput a = hashInput b) :
    filter.contains a = filter.contains b := by
  rw [contains_eq, contains_eq]
  unfold bitIndex
  rw [h]

/-! ## The stored form -/

open Reader

theorem length_encode (filter : BloomFilter) : filter.encode.length = filter.encodedLength := by
  have hwords : (filter.words.toList.flatMap Bytes.ofWord64).length = filter.words.size * 8 := by
    rw [List.length_flatMap, List.map_congr_left fun w _ => Bytes.LittleEndian.length_ofNat 8 w.toNat]
    simp
  rw [encode, List.length_append, List.length_append, List.length_append, hwords, encodedLength,
    Bytes.LittleEndian.length_ofNat]
  rfl

/-- A stored filter is read back as it was. -/
theorem takes_encode (filter : BloomFilter) : Takes decode filter.encode filter := by
  obtain ⟨bits, hashes, count, words, hbits, hpos, hle, hwords⟩ := filter
  have hcount : words.toList.length = (bits.toNat + 63) / 64 := by rw [Array.length_toList, hwords]
  have hmany : Takes (many word64 ((bits.toNat + 63) / 64)) (words.toList.flatMap Bytes.ofWord64)
      (words.toList.map id) := by
    rw [← hcount]
    exact takes_many fun w _ => takes_word64 w
  rw [List.map_id] at hmany
  have hhashes : hashes < Bytes.LittleEndian.count 4 := Nat.lt_of_le_of_lt hle (by decide)
  unfold decode
  refine Takes.require ?_ ?_
  · unfold encode
    rw [List.append_assoc, List.append_assoc]
    refine (takes_word64 bits).bind ((takes_number hhashes).bind ((takes_word64 count).bind ?_))
    rw [dif_pos ⟨hbits, hpos, hle⟩]
    refine Takes.require (hmany.map ?_) ?_
    · rw [dif_pos hcount]
    · have hlen := length_encode ⟨bits, hashes, count, words, hbits, hpos, hle, hwords⟩
      simp only [encode, encodedLength, List.length_append, Bytes.ofWord64, Bytes.LittleEndian.length_ofNat,
        hwords] at hlen
      omega
  · rw [length_encode, encodedLength]
    omega

end PagedIndex.BloomFilter
