import PagedIndex.Decimal.Fixed
import PagedIndex.Hash.SipHash
import PagedIndex.Rate
import PagedIndex.Value.Key

/-!
# Bloom filters

A filter over keys that never denies a key it was given. Its shape is part of the type: there are at
least sixty-four bits, one to thirty hashes, and words enough for all bits, so that a bit index always
falls inside a word (`bitIndex_lt`).
-/

namespace PagedIndex

/-- The most hashes a filter uses. -/
abbrev BloomFilter.maxHashes : Nat := 30

/-- A Bloom filter. `count` is the number of insertions. -/
structure BloomFilter where
  bits : UInt64
  hashes : Nat
  count : UInt64
  words : Array UInt64
  bits_ge : 64 ≤ bits.toNat
  hashes_pos : 0 < hashes
  hashes_le : hashes ≤ BloomFilter.maxHashes
  size_words : words.size = (bits.toNat + 63) / 64

namespace BloomFilter

/-- An empty filter of `bits` bits and `hashes` hashes, both brought into range. -/
def empty (bits : UInt64) (hashes : Nat) : BloomFilter :=
  let bits' := max bits 64
  { bits := bits'
    hashes := max 1 (min hashes maxHashes)
    count := 0
    words := Array.replicate ((bits'.toNat + 63) / 64) 0
    bits_ge := by
      show 64 ≤ (max bits 64).toNat
      rw [show max bits 64 = if bits ≤ 64 then 64 else bits from rfl]
      split
      · decide
      · rename_i h
        have : ¬ bits.toNat ≤ 64 := fun h' => h (UInt64.le_iff_toNat_le.mpr h')
        omega
    hashes_pos := Nat.lt_of_lt_of_le Nat.zero_lt_one (Nat.le_max_left 1 _)
    hashes_le := Nat.max_le.mpr ⟨by decide, Nat.min_le_right hashes maxHashes⟩
    size_words := by simp }

/-- An empty filter for `items` keys that wrongly admits about `rate` of the others. -/
def forRate (items : Nat) (rate : Rate) : BloomFilter :=
  let items := (UInt64.ofNat (max items 1)).toFloat
  let rate := rate.toFloat
  -- a rate near zero would ask for any number of bits, one near one for none
  let rate := if rate < 0.0001 then 0.0001 else if rate > 0.5 then 0.5 else rate
  let ln2 := Float.log 2.0
  let wanted := -(items * Float.log rate / (ln2 * ln2))
  let bits := max wanted.ceil.toUInt64 64
  let hashes := ((bits.toFloat / items) * ln2).round
  empty bits hashes.toUInt64.toNat

/-- The bit that hash number `i` assigns to a key. -/
def bitIndex {K : Type} [HashInput K] (filter : BloomFilter) (key : K) (i : Nat) : Nat :=
  -- one hash under different keys takes the place of many
  let k0 := 0x517cc1b727220a95 + UInt64.ofNat i
  let k1 := 0x0fc94dc6e6eb8a5f + UInt64.ofNat (2 * i)
  (SipHash.hash k0 k1 (hashInput key) % filter.bits).toNat

theorem bitIndex_lt {K : Type} [HashInput K] (filter : BloomFilter) (key : K) (i : Nat) :
    filter.bitIndex key i / 64 < filter.words.size := by
  have hbits := filter.bits_ge
  have hmod := Nat.mod_lt (SipHash.hash (0x517cc1b727220a95 + UInt64.ofNat i)
    (0x0fc94dc6e6eb8a5f + UInt64.ofNat (2 * i)) (hashInput key)).toNat
    (show 0 < filter.bits.toNat by omega)
  rw [filter.size_words, bitIndex, UInt64.toNat_mod]
  omega

/-- Whether bit `bit` is set in `words`. -/
def isSet (words : Array UInt64) (bit : Nat) (h : bit / 64 < words.size) : Bool :=
  (words[bit / 64] >>> UInt64.ofNat (bit % 64)) &&& 1 == 1

/-- Sets the bit that hash number `i` assigns to a key. -/
def mark {K : Type} [HashInput K] (filter : BloomFilter) (key : K) (i : Nat) : BloomFilter :=
  let bit := filter.bitIndex key i
  have inside : bit / 64 < filter.words.size := filter.bitIndex_lt key i
  let word := filter.words[bit / 64]
  { filter with
    words := filter.words.set (bit / 64) (word ||| (1 <<< UInt64.ofNat (bit % 64))) inside
    size_words := by simp [filter.size_words] }

/-- Adds a key. -/
def insert {K : Type} [HashInput K] (filter : BloomFilter) (key : K) : BloomFilter :=
  let marked := (List.range filter.hashes).foldl (fun f i => f.mark key i) filter
  { marked with count := marked.count + 1 }

/-- False only for keys that were never inserted. -/
def contains {K : Type} [HashInput K] (filter : BloomFilter) (key : K) : Bool :=
  (List.range filter.hashes).all fun i =>
    isSet filter.words (filter.bitIndex key i) (filter.bitIndex_lt key i)

/-- How many bits of a word are set. -/
def onesIn (word : UInt64) : Nat :=
  (List.range 64).countP fun i => (word >>> UInt64.ofNat i) &&& 1 == 1

/-- The share of bits that are set. -/
def fillRatio (filter : BloomFilter) : Float :=
  let ones := filter.words.foldl (fun sum word => sum + onesIn word) 0
  (UInt64.ofNat ones).toFloat / filter.bits.toFloat

/-- The length of the stored form. -/
def encodedLength (filter : BloomFilter) : Nat := 8 + 4 + 8 + filter.words.size * 8

/-- The stored form: the number of bits, of hashes and of keys, then the words. -/
def encode (filter : BloomFilter) : List UInt8 :=
  Bytes.ofWord64 filter.bits ++ Bytes.LittleEndian.ofNat 4 filter.hashes
    ++ Bytes.ofWord64 filter.count ++ filter.words.toList.flatMap Bytes.ofWord64

/-- Reads a stored filter; fails on a shape that no filter has. -/
def decode : Reader BloomFilter := do
  Reader.require (8 + 4 + 8)
  let bits ← Reader.word64
  let hashes ← Reader.number 4
  let count ← Reader.word64
  if shape : 64 ≤ bits.toNat ∧ 0 < hashes ∧ hashes ≤ maxHashes then
    let size := (bits.toNat + 63) / 64
    Reader.require (size * 8)
    let words ← Reader.many Reader.word64 size
    -- as many words are read as are asked for, which the type has to be told
    if enough : words.length = size then
      return {
        bits, hashes, count
        words := words.toArray
        bits_ge := shape.1
        hashes_pos := shape.2.1
        hashes_le := shape.2.2
        size_words := by simpa using enough }
    else
      Action.abort
  else
    Action.fail (.filterShape bits.toNat hashes)

/-- The filter as a listing of its fields. -/
def text (filter : BloomFilter) : String :=
  "BloomFilter \x7b num_bits: " ++ toString filter.bits.toNat
    ++ ", num_hashes: " ++ toString filter.hashes
    ++ ", count: " ++ toString filter.count.toNat
    ++ ", fill_ratio: \"" ++ Decimal.Fixed.text (filter.fillRatio * 100.0) 2 ++ "%\" \x7d"

/-- Two filters are the same when all that is stored of them is. -/
instance : BEq BloomFilter :=
  ⟨fun f g => f.bits == g.bits && f.hashes == g.hashes && f.count == g.count && f.words == g.words⟩

end BloomFilter

end PagedIndex
