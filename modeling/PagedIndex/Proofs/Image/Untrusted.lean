import PagedIndex.Image.NodeFormat
import PagedIndex.Proofs.Guarded
import PagedIndex.Proofs.Image.Stored

/-!
# Images from anywhere

Whatever bytes an image consists of, reading a page, a node, the descriptor or the filter fails or gives an answer,
and a node that is an inner page has one more child than separators. Offsets and lengths are words and stay below the
length of the image whenever they are added up: readers with numbers that have no greatest one do the same
(`page_eq_pageExact`, `descriptor_eq_descriptorExact`).
-/

namespace PagedIndex

open PagedIndex.Action Reader

variable {bytes : List UInt8}

/-! ## What is stored -/

theorem Header.meets_decode :
    Meets decode bytes fun _ rest => rest.length + Header.byteSize = bytes.length := by
  unfold decode
  refine (meets_require Header.byteSize).bind ?_
  rintro _ _ ⟨rfl, h⟩
  rw [Header.byteSize] at h ⊢
  refine (meets_word UInt8.ofNat (by omega)).bind fun kind _ _ => ?_
  refine (meets_word UInt32.ofNat (by omega)).bind fun checksum _ _ => ?_
  refine (meets_word UInt32.ofNat (by omega)).bind fun length _ _ => ?_
  exact meets_pure (by omega)

theorem Descriptor.meets_decode : Meets decode bytes fun _ _ => byteSize ≤ bytes.length := by
  unfold decode
  refine (meets_require byteSize).bind ?_
  rintro _ _ ⟨rfl, hroom⟩
  have h := hroom
  rw [byteSize] at h
  refine (meets_word UInt16.ofNat (by omega)).bind fun version _ _ => ?_
  split
  · exact meets_fail_bind
  refine (meets_word UInt32.ofNat (by omega)).bind fun pageSize _ _ => ?_
  refine (meets_word UInt8.ofNat (by omega)).bind fun flag _ _ => ?_
  refine (meets_word UInt64.ofNat (by omega)).bind fun root _ _ => ?_
  refine (meets_word UInt64.ofNat (by omega)).bind fun rightmost _ _ => ?_
  refine (meets_word UInt64.ofNat (by omega)).bind fun items _ _ => ?_
  refine (meets_word UInt16.ofNat (by omega)).bind fun measures _ _ => ?_
  refine (meets_word UInt16.ofNat (by omega)).bind fun unused _ _ => ?_
  exact meets_pure hroom

/-- A filter is made only if there are as many words as its number of bits asks for. -/
theorem BloomFilter.meets_decode : Meets decode bytes fun _ _ => True := by
  unfold decode
  refine (meets_require (8 + 4 + 8)).bind ?_
  rintro _ _ ⟨rfl, h⟩
  refine (meets_word UInt64.ofNat (by omega)).bind fun bits _ _ => ?_
  refine (Reader.meets_number (show 4 ≤ _ by omega)).bind fun hashes _ _ => ?_
  refine (meets_word UInt64.ofNat (by omega)).bind fun count _ _ => ?_
  split
  · -- the number of words follows from the number of bits, and that many are there
    refine (meets_require _).bind ?_
    rintro _ _ ⟨rfl, hroom⟩
    refine (meets_manyWords (fun _ => meets_word UInt64.ofNat) hroom).bind fun words _ hlen => ?_
    rw [dif_pos hlen]
    exact meets_pure trivial
  · exact meets_fail _

namespace StoredPage

variable {K I : Type} [Codec K] [Codec I] [GuardedCodec K] [GuardedCodec I]

/-- An inner page has one more child than separators. -/
def Shaped (node : Node K I) : Prop :=
  ∀ inner, node = .inner inner → inner.children.length = inner.keys.length + 1

theorem meets_decodeMeasures : Meets decodeMeasures bytes fun _ _ => True := by
  unfold decodeMeasures
  refine (meets_require 2).bind ?_
  rintro _ _ ⟨rfl, h⟩
  refine (Reader.meets_number h).bind fun count _ _ => ?_
  refine (meets_require _).bind ?_
  rintro _ _ ⟨rfl, hroom⟩
  refine (meets_manyWords (fun rest hrest => ?_) hroom).mono fun _ _ _ => trivial
  exact (meets_word UInt64.ofNat hrest).bind fun _ _ h => meets_pure h

theorem meets_decodeChild : Meets decodeChild bytes fun _ _ => True :=
  Codec.guarded_number (fun n => (⟨UInt64.ofNat n⟩ : PageRef)) bytes

omit [Codec I] [GuardedCodec I] in
theorem meets_decodeSlot : Meets (decodeSlot (K := K)) bytes fun _ _ => True :=
  (GuardedCodec.guarded bytes).bind fun _ _ _ => meets_decodeChild.bind fun _ _ _ => meets_pure trivial

theorem meets_decodeBody (kind : PageKind) (right : Option PageRef) :
    Meets (decodeBody (K := K) (I := I) kind right) bytes fun node _ => Shaped node := by
  unfold decodeBody
  cases kind with
  | leaf =>
    refine (Codec.meets_number 4).bind fun count _ _ => ?_
    refine (meets_many (P := fun _ _ => True) (fun _ rest _ => GuardedCodec.guarded rest) trivial).bind fun _ _ _ => ?_
    exact meets_pure fun _ h => absurd h (by simp)
  | inner =>
    refine (Codec.meets_number 4).bind fun count _ _ => ?_
    refine meets_decodeChild.bind fun first _ _ => ?_
    refine (meets_many (P := fun _ _ => True) (fun _ _ _ => meets_decodeSlot) trivial).bind fun slots rest _ => ?_
    -- every separator was read with the child behind it
    have hlen : (first :: slots.map Prod.snd).length = (slots.map Prod.fst).length + 1 := by
      rw [List.length_cons, List.length_map, List.length_map]
    have hparts : Inner.ofParts? (slots.map Prod.fst) (first :: slots.map Prod.snd)
        = some (⟨slots.map Prod.fst, first :: slots.map Prod.snd⟩ : Inner K) := by
      rw [Inner.ofParts?, if_pos hlen]
    refine (meets_orAbort (Q := fun inner _ => inner = ⟨slots.map Prod.fst, first :: slots.map Prod.snd⟩) hparts
      rfl).bind ?_
    rintro _ _ rfl
    refine meets_pure fun inner h => ?_
    obtain rfl := Node.inner.inj h
    exact hlen
  | invalid => exact meets_fail _
  | descriptor => exact meets_fail _

theorem answersOrFails_decode (page : StoredPage) :
    AnswersOrFails (fun read : Node K I × List Int64 => Shaped read.1) page.decode := by
  refine answersOrFails_run ?_
  unfold decodePayload
  refine meets_decodeMeasures.bind fun measures _ _ => ?_
  refine (meets_decodeBody page.kind page.right).bind fun node _ hshaped => ?_
  refine meets_left.bind fun left _ _ => ?_
  split
  · exact meets_fail_bind
  · exact meets_pure hshaped

end StoredPage

namespace Image

variable {image : Image} {offset : UInt64}

theorem answersOrFails_readAt {α : Type} {read : Reader α} {Q : α → Prop} (offset : UInt64)
    (h : ∀ bytes, Meets read bytes fun a _ => Q a) : AnswersOrFails Q (image.readAt offset read) :=
  answersOrFails_run (h _)

/-- Who reads header and payload has not gone beyond the end of the image. -/
theorem meets_headed (image : Image) (offset : UInt64) (bytes : List UInt8) :
    Meets (image.headed offset) bytes fun out _ => out.2.length = out.1.length.toNat
      ∧ ¬ saturatingAdd offset (UInt64.ofNat Header.byteSize) > image.size
      ∧ ¬ offset + UInt64.ofNat Header.byteSize + out.1.length.toUInt64 > image.size
      ∧ Header.byteSize + out.2.length ≤ bytes.length := by
  unfold headed
  split
  · exact meets_fail_bind
  -- the header lies in the image
  rename_i hstart
  refine Header.meets_decode.bind fun header _ hheader => ?_
  split
  · exact meets_fail_bind
  -- and so does the payload
  rename_i hend
  refine (meets_exactly header.length.toNat).bind ?_
  rintro payload _ ⟨hlen, hpayload⟩
  split
  · exact meets_fail_bind
  · exact meets_pure ⟨hlen, hstart, hend, by dsimp only; omega⟩

theorem meets_link (kind : PageKind) : Meets (link kind) bytes fun _ _ => True := by
  unfold link
  split
  · exact (meets_exactly _).bind fun _ _ _ => meets_pure trivial
  · exact meets_pure trivial

theorem answersOrFails_page (image : Image) (offset : UInt64) :
    AnswersOrFails (fun _ => True) (image.page offset) := by
  refine answersOrFails_readAt offset fun bytes => ?_
  refine (image.meets_headed offset bytes).bind fun out _ _ => ?_
  exact (meets_link out.1.kind).bind fun _ _ _ => meets_pure trivial

theorem answersOrFails_filter (image : Image) (start trailer : UInt64) :
    AnswersOrFails (fun _ => True) (image.filter start trailer) := by
  unfold Image.filter
  refine AnswersOrFails.bind (Q := fun _ => True) ?_ fun raw _ _ => answersOrFails_run BloomFilter.meets_decode
  exact answersOrFails_readAt start fun bytes => (meets_exactly _).mono fun _ _ _ => trivial

/-- A descriptor is found only where there is room for one. -/
theorem answersOrFails_descriptor (image : Image) :
    AnswersOrFails (fun _ => Header.byteSize + Descriptor.byteSize ≤ image.bytes.length) image.descriptor := by
  unfold descriptor
  split
  · trivial
  refine AnswersOrFails.bind (Q := fun _ => True) ?_ fun raw _ _ => ?_
  · exact answersOrFails_readAt _ fun bytes => (meets_exactly _).mono fun _ _ _ => trivial
  refine AnswersOrFails.bind (Q := fun out => Header.byteSize + out.2.length ≤ image.bytes.length) ?_
    fun out _ hheaded => ?_
  · refine answersOrFails_run ((image.meets_headed _ _).mono ?_)
    rintro out _ ⟨-, -, -, hroom⟩
    rw [List.length_drop] at hroom
    omega
  dsimp only
  split
  · trivial
  refine AnswersOrFails.bind (Q := fun _ => Descriptor.byteSize ≤ out.2.length)
    (answersOrFails_run Descriptor.meets_decode) fun d _ hdescriptor => ?_
  have hroom : Header.byteSize + Descriptor.byteSize ≤ image.bytes.length := by omega
  split
  · exact (answersOrFails_filter image _ _).bind fun _ _ _ => hroom
  · exact hroom

/-! ## Numbers without a greatest one -/

/-- `headed` with offsets and lengths that have no greatest one. -/
def headedExact (image : Image) (offset : Nat) : Reader (Header × List UInt8) := do
  if offset + Header.byteSize > image.bytes.length then
    Action.fail (.pageStart offset image.bytes.length)
  let header ← Header.decode
  if offset + Header.byteSize + header.length.toNat > image.bytes.length then
    Action.fail (.pageBody offset)
  let payload ← Reader.exactly header.length.toNat
  if !header.accepts payload then
    Action.fail (.checksum offset)
  return (header, payload)

/-- `page` with offsets and lengths that have no greatest one. -/
def pageExact (image : Image) (offset : Nat) : Except (Halt IoError) StoredPage :=
  Reader.run (do
    let (header, payload) ← image.headedExact offset
    let right ← link header.kind
    return { kind := header.kind, payload, right }) (image.bytes.drop offset)

/-- `filter` with offsets and lengths that have no greatest one. -/
def filterExact (image : Image) (start trailer : Nat) : Except (Halt IoError) BloomFilter := do
  let bytes ← (Reader.exactly (trailer - start)).run (image.bytes.drop start)
  BloomFilter.decode.run bytes

/-- `descriptor` with offsets and lengths that have no greatest one. -/
def descriptorExact (image : Image) : Except (Halt IoError) (Descriptor × Option BloomFilter) := do
  if image.bytes.length < 8 then
    throw (.failed .noTrailer)
  let trailer := image.bytes.length - 8
  let raw ← (Reader.exactly StoredPage.linkSize).run (image.bytes.drop trailer)
  let offset := (UInt64.ofNat (Bytes.LittleEndian.toNat raw)).toNat
  let (header, payload) ← (image.headedExact offset).run (image.bytes.drop offset)
  if header.kind ≠ .descriptor then
    throw (.failed (.notDescriptor offset header.kind))
  let descriptor ← Descriptor.decode.run payload
  if descriptor.hasFilter then
    return (descriptor, some (← image.filterExact (offset + Header.byteSize + payload.length) trailer))
  else
    return (descriptor, none)

variable (h : image.bytes.length + 2 ^ 32 ≤ 2 ^ 64)

include h

theorem toNat_size_of_le : image.size.toNat = image.bytes.length := size_eq (by omega)

/-- The start of a page is compared with the end of the image as it is. -/
theorem start_gt_size : saturatingAdd offset (UInt64.ofNat Header.byteSize) > image.size
    ↔ offset.toNat + Header.byteSize > image.bytes.length := by
  have hnine : (UInt64.ofNat Header.byteSize).toNat = Header.byteSize := rfl
  have hsize := toNat_size_of_le h
  have hlt := offset.toNat_lt
  rw [gt_iff_lt, UInt64.lt_iff_toNat_lt, hsize, Header.byteSize]
  by_cases hfits : offset.toNat + 9 < 2 ^ 64
  · rw [saturatingAdd_eq hfits]
    rfl
  · -- a sum that does not fit is beyond the end in any case
    have hwrap : offset + UInt64.ofNat 9 < offset := by
      rw [UInt64.lt_iff_toNat_lt, UInt64.toNat_add, show (UInt64.ofNat 9).toNat = 9 from rfl]
      omega
    rw [saturatingAdd, if_pos hwrap]
    have hmax : (0xFFFFFFFFFFFFFFFF : UInt64).toNat = 2 ^ 64 - 1 := rfl
    rw [hmax]
    omega

/-- And so is its end, if its start lies in the image: what a header announces is too short for the sum to wrap. -/
theorem toNat_end (hstart : offset.toNat + Header.byteSize ≤ image.bytes.length) (length : UInt32) :
    (offset + UInt64.ofNat Header.byteSize + length.toUInt64).toNat
      = offset.toNat + Header.byteSize + length.toNat := by
  have hlength := length.toNat_lt
  rw [UInt64.toNat_add, UInt64.toNat_add, UInt32.toNat_toUInt64,
    show (UInt64.ofNat Header.byteSize).toNat = Header.byteSize from rfl]
  omega

theorem headed_eq_headedExact (offset : UInt64) : image.headed offset = image.headedExact offset.toNat := by
  have hsize := toNat_size_of_le h
  unfold headed headedExact
  by_cases hstart : offset.toNat + Header.byteSize > image.bytes.length
  · rw [if_pos ((start_gt_size h).mpr hstart), if_pos hstart, hsize]
    rfl
  · rw [if_neg ((start_gt_size h).not.mpr hstart), if_neg hstart]
    refine congrArg (Header.decode >>= ·) (funext fun header => ?_)
    have hend : offset + UInt64.ofNat Header.byteSize + header.length.toUInt64 > image.size
        ↔ offset.toNat + Header.byteSize + header.length.toNat > image.bytes.length := by
      rw [gt_iff_lt, UInt64.lt_iff_toNat_lt, hsize, toNat_end h (Nat.not_lt.mp hstart)]
    simp only [hend]

/-- A page is read as if offsets could not wrap. -/
theorem page_eq_pageExact (offset : UInt64) : image.page offset = image.pageExact offset.toNat := by
  unfold page pageExact readAt
  rw [headed_eq_headedExact h]

omit h in
theorem filter_eq_filterExact (start trailer : UInt64) :
    image.filter start trailer = image.filterExact start.toNat trailer.toNat := by
  have hlength : (if start ≤ trailer then trailer - start else 0).toNat = trailer.toNat - start.toNat := by
    split
    · rename_i hle
      exact UInt64.toNat_sub_of_le _ _ hle
    · rename_i hle
      rw [UInt64.le_iff_toNat_le] at hle
      exact (Nat.sub_eq_zero_of_le (Nat.le_of_not_le hle)).symm
  unfold Image.filter filterExact readAt
  dsimp only
  rw [hlength]

/-- The descriptor and the filter are found as if offsets could not wrap. -/
theorem descriptor_eq_descriptorExact : image.descriptor = image.descriptorExact := by
  have hsize := toNat_size_of_le h
  unfold descriptor descriptorExact
  by_cases hshort : image.bytes.length < 8
  · have hshort' : image.size < 8 := by
      rw [UInt64.lt_iff_toNat_lt, hsize]
      exact hshort
    rw [if_pos hshort, if_pos hshort']
    rfl
  have hshort' : ¬ image.size < 8 := by
    rw [UInt64.lt_iff_toNat_lt, hsize]
    exact hshort
  have htrailer : (image.size - 8).toNat = image.bytes.length - 8 := by
    rw [UInt64.toNat_sub_of_le _ _ (UInt64.not_lt.mp hshort'), hsize]
    rfl
  rw [if_neg hshort, if_neg hshort']
  dsimp only [readAt]
  rw [htrailer]
  refine congrArg (_ >>= ·) (funext fun raw => ?_)
  -- the offset in the trailer may be any word; what is read there has been compared with the end
  rw [headed_eq_headedExact h]
  generalize UInt64.ofNat (Bytes.LittleEndian.toNat raw) = offset
  have hheaded := answersOrFails_run (image.meets_headed offset (image.bytes.drop offset.toNat))
  rw [headed_eq_headedExact h] at hheaded
  cases hout : (image.headedExact offset.toNat).run (image.bytes.drop offset.toNat) with
  | error halt => rfl
  | ok out =>
    obtain ⟨hlen, hstart, -⟩ := hheaded.answered hout
    have hend : (offset + UInt64.ofNat (Header.byteSize + out.2.length)).toNat
        = offset.toNat + Header.byteSize + out.2.length := by
      have hshort := out.1.length.toNat_lt
      rw [start_gt_size h] at hstart
      rw [UInt64.toNat_add, UInt64.toNat_ofNat', Header.byteSize, hlen]
      rw [Header.byteSize] at hstart
      omega
    dsimp only [bind, Except.bind]
    rw [filter_eq_filterExact, hend, htrailer]

end Image

end PagedIndex
