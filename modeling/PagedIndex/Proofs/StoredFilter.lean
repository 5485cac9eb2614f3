import PagedIndex.Proofs.Filter
import PagedIndex.Proofs.Image.Untrusted
import PagedIndex.Proofs.Inverting

/-!
# Filters that are stored and read back

Keys of any types may be added to a filter (`Item`), since it sees of a key only the bytes to hash. Whatever is added,
no bit is lost, and the filter that was stored is read back; a filter is read from the stored forms of filters and from
no other bytes (`inverts_decode`), so that one whose words would not hold all its bits is never made.
-/

namespace PagedIndex.BloomFilter

/-! ## Items -/

/-- A key of a type that can be hashed. -/
structure Item where
  Key : Type
  hashed : HashInput Key
  key : Key

instance (item : Item) : HashInput item.Key := item.hashed

/-- Adds an item. -/
def add (filter : BloomFilter) (item : Item) : BloomFilter := filter.insert item.key

/-- False only for items that were never added. -/
def admits (filter : BloomFilter) (item : Item) : Bool := filter.contains item.key

/-- Of the items that were added one after the other, and of those that were admitted before, none is denied. -/
theorem admits_foldl_add {items : List Item} {item : Item} {filter : BloomFilter}
    (h : item ∈ items ∨ filter.admits item = true) : (items.foldl add filter).admits item = true := by
  induction items generalizing filter with
  | nil => exact h.resolve_left List.not_mem_nil
  | cons first items ih =>
    rw [List.foldl_cons]
    refine ih ?_
    rcases h with h | h
    · rcases List.mem_cons.mp h with rfl | h
      · exact .inr (contains_insert filter item.key)
      · exact .inl h
    · exact .inr (contains_insert_of_contains h first.key)

/-! ## The stored form -/

open Reader

/-- A filter is read from what is stored of it, and from nothing else. -/
theorem inverts_decode : Inverts decode encode fun _ => True where
  takes filter _ := takes_encode filter
  canonical {bytes filter rest} hrun := by
    unfold decode at hrun
    obtain ⟨_, start, hasked, hrun⟩ := hrun.of_bind
    obtain ⟨bits, afterBits, hbits, hrun⟩ := hrun.of_bind
    obtain ⟨hashes, afterHashes, hhashes, hrun⟩ := hrun.of_bind
    obtain ⟨count, afterCount, hcount, hshaped⟩ := hrun.of_bind
    obtain ⟨-, rfl⟩ := (runs_require (le_of_runs_require hasked)).unique hasked
    obtain ⟨rfl, -⟩ := inverts_word64.canonical hbits
    obtain ⟨rfl, -⟩ := (Reader.inverts_number 4).canonical hhashes
    obtain ⟨rfl, -⟩ := inverts_word64.canonical hcount
    -- the header alone decides whether words are read at all
    split at hshaped
    · obtain ⟨_, start, hasked, hfilled⟩ := hshaped.of_bind
      obtain ⟨words, afterWords, hwords, hmade⟩ := hfilled.of_bind
      obtain ⟨-, rfl⟩ := (runs_require (le_of_runs_require hasked)).unique hasked
      obtain ⟨rfl, hlen, -⟩ := (inverts_word64.many _).canonical hwords
      rw [dif_pos hlen] at hmade
      obtain ⟨rfl, rfl⟩ := (Action.runs_pure _ _).unique hmade
      refine ⟨?_, trivial⟩
      simp only [encode, List.append_assoc]
    · exact absurd hshaped Action.not_runs_fail

/-- Let any items be added to any filter, be it empty with any number of bits and hashes or read from any bytes. Every
word that is looked at for an item is there. No item that was added is denied, nor is one that was admitted before. What
is stored of the filter is as long as it is said to be, and in front of any other bytes it is read back as that filter.
Bytes that are not what is stored of a filter are refused, and nothing behind their end is looked at. -/
theorem admits_and_decode (filter : BloomFilter) (items : List Item) :
    let grown := items.foldl add filter
    (∀ (item : Item) i, grown.bitIndex item.key i / 64 < grown.words.size)
      ∧ (∀ item ∈ items, grown.admits item = true) ∧ (∀ item, filter.admits item = true → grown.admits item = true)
      ∧ grown.encode.length = grown.encodedLength ∧ (∀ rest, decode (grown.encode ++ rest) = .ok grown rest)
      ∧ ∀ bytes, (∃ read rest, decode bytes = .ok read rest ∧ bytes = read.encode ++ rest)
        ∨ ∃ error rest, decode bytes = .error (.failed error) rest := by
  intro grown
  refine ⟨fun item => grown.bitIndex_lt item.key, fun item hitem => admits_foldl_add (.inl hitem),
    fun item hitem => admits_foldl_add (.inr hitem), length_encode _, takes_encode _, fun bytes => ?_⟩
  have hmeets : Action.Meets decode bytes fun _ _ => True := meets_decode
  unfold Action.Meets at hmeets
  cases hread : decode bytes with
  | ok read rest => exact .inl ⟨read, rest, rfl, (inverts_decode.canonical hread).1⟩
  | error halt rest =>
    rw [hread] at hmeets
    cases halt with
    | failed error => exact .inr ⟨error, rest, rfl⟩
    | aborted => exact hmeets.elim
    | endless => exact hmeets.elim

end PagedIndex.BloomFilter
