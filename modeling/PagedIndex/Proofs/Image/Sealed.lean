import PagedIndex.Proofs.Filter
import PagedIndex.Proofs.Image.Stored
import PagedIndex.Image.Writer

/-!
# A sealed image is opened

An image ends with what its writer sealed it with: the descriptor, the filter if there is one, and the offset of
the descriptor in the last eight bytes. Whatever pages lie before, descriptor and filter are read back as they were
(`descriptor_eq`).
-/

namespace PagedIndex

open Reader

/-- A stored descriptor is read back as it was. -/
theorem Descriptor.takes_encode (d : Descriptor) : Takes decode d.encode d := by
  have hflag : ((if d.hasFilter then 1 else 0 : UInt8) != 0) = d.hasFilter := by
    cases d.hasFilter <;> rfl
  unfold decode
  refine Takes.require ?_ (Nat.le_of_eq d.length_encode.symm)
  unfold encode
  rw [List.append_assoc, List.append_assoc, List.append_assoc, List.append_assoc, List.append_assoc,
    List.append_assoc]
  refine (takes_word16 version).bind ?_
  rw [if_neg (by simp)]
  refine (takes_word32 d.pageSize).bind ((takes_byte _).bind ((takes_word64 d.root.id).bind ?_))
  refine (takes_word64 d.rightmost.id).bind ((takes_word64 d.items).bind ?_)
  refine (takes_word16 d.measures).bind ((takes_word16 0).map ?_)
  rw [hflag]

namespace Image

/-- The bytes that seal an image with pages of `length` bytes. -/
def sealing (length : Nat) (d : Descriptor) (f : Option BloomFilter) : List (List UInt8) :=
  d.toStored.fields ++ ImageWriter.filterFields f ++ [Bytes.ofWord64 (PageRef.ofNat length).id]

/-- An image of these bytes, sealed. -/
def ofSealed (bytes : List UInt8) (d : Descriptor) (f : Option BloomFilter) : Image :=
  ⟨bytes ++ (sealing bytes.length d f).flatten⟩

variable {bytes : List UInt8} {d : Descriptor} {f : Option BloomFilter}

/-- Descriptor, filter and trailer, one behind the other. -/
theorem bytes_ofSealed : (ofSealed bytes d f).bytes = bytes ++ (d.toStored.toBytes
    ++ ((ImageWriter.filterFields f).flatten ++ Bytes.ofWord64 (PageRef.ofNat bytes.length).id)) := by
  rw [ofSealed, sealing, List.flatten_append, List.flatten_append, List.append_assoc, List.flatten_singleton]
  rfl

theorem length_toStored (d : Descriptor) :
    d.toStored.toBytes.length = Header.byteSize + Descriptor.byteSize := by
  rw [StoredPage.length_toBytes]
  show Header.byteSize + d.encode.length + 0 = _
  rw [d.length_encode, Nat.add_zero]

theorem length_ofSealed : (ofSealed bytes d f).bytes.length
    = bytes.length + (Header.byteSize + Descriptor.byteSize) + (ImageWriter.filterFields f).flatten.length + 8 := by
  have hword : (Bytes.ofWord64 (PageRef.ofNat bytes.length).id).length = 8 := Bytes.LittleEndian.length_ofNat 8 _
  rw [bytes_ofSealed, List.length_append, List.length_append, List.length_append, hword, length_toStored]
  omega

variable (hsize : (ofSealed bytes d f).bytes.length < 2 ^ 64)

include hsize

theorem toNat_size : (ofSealed bytes d f).size.toNat = bytes.length + (Header.byteSize + Descriptor.byteSize)
    + (ImageWriter.filterFields f).flatten.length + 8 := by
  rw [size_eq hsize, length_ofSealed]

theorem toNat_trailer : ((ofSealed bytes d f).size - 8).toNat = bytes.length
    + (Header.byteSize + Descriptor.byteSize) + (ImageWriter.filterFields f).flatten.length := by
  have h := toNat_size hsize
  have hle : (8 : UInt64) ≤ (ofSealed bytes d f).size := by
    rw [UInt64.le_iff_toNat_le, h]
    exact Nat.le_add_left _ _
  rw [UInt64.toNat_sub_of_le _ _ hle, h]
  rfl

theorem toNat_start : (UInt64.ofNat bytes.length).toNat = bytes.length := by
  refine UInt64.toNat_ofNat_of_lt' ?_
  show bytes.length < 2 ^ 64
  rw [length_ofSealed] at hsize
  omega

/-- The last eight bytes are the offset of the descriptor. -/
theorem trailer_lies : Bytes.ofWord64 (PageRef.ofNat bytes.length).id
    <+: (ofSealed bytes d f).bytes.drop ((ofSealed bytes d f).size - 8).toNat := by
  have hlen : (bytes ++ d.toStored.toBytes ++ (ImageWriter.filterFields f).flatten).length
      = bytes.length + (Header.byteSize + Descriptor.byteSize) + (ImageWriter.filterFields f).flatten.length := by
    rw [List.length_append, List.length_append, length_toStored]
  rw [toNat_trailer hsize, bytes_ofSealed, ← List.append_assoc, ← List.append_assoc, List.drop_left' hlen]

/-- The descriptor lies behind the pages. -/
theorem descriptor_lies : d.toStored.toBytes
    <+: (ofSealed bytes d f).bytes.drop (UInt64.ofNat bytes.length).toNat := by
  rw [toNat_start hsize, bytes_ofSealed, List.drop_left]
  exact List.prefix_append _ _

/-- The filter lies between descriptor and trailer. -/
theorem filter_eq {filter : BloomFilter} (hf : f = some filter) : (ofSealed bytes d f).filter
    (UInt64.ofNat bytes.length + UInt64.ofNat (Header.byteSize + d.encode.length))
    ((ofSealed bytes d f).size - 8) = .ok filter := by
  subst hf
  have hfields : (ImageWriter.filterFields (some filter)).flatten = filter.encode :=
    List.flatten_singleton
  have htotal := hsize
  rw [length_ofSealed, hfields] at htotal
  have hstart : (UInt64.ofNat bytes.length + UInt64.ofNat (Header.byteSize + d.encode.length)).toNat
      = bytes.length + (Header.byteSize + Descriptor.byteSize) := by
    have hseal : (UInt64.ofNat (Header.byteSize + d.encode.length)).toNat
        = Header.byteSize + Descriptor.byteSize := by
      rw [d.length_encode]
      rfl
    rw [UInt64.toNat_add, toNat_start hsize, hseal]
    omega
  have htrailer := toNat_trailer hsize
  rw [hfields] at htrailer
  have hle : UInt64.ofNat bytes.length + UInt64.ofNat (Header.byteSize + d.encode.length)
      ≤ (ofSealed bytes d (some filter)).size - 8 := by
    rw [UInt64.le_iff_toNat_le, hstart, htrailer]
    exact Nat.le_add_right _ _
  have hlies : filter.encode <+: (ofSealed bytes d (some filter)).bytes.drop
      (UInt64.ofNat bytes.length + UInt64.ofNat (Header.byteSize + d.encode.length)).toNat := by
    rw [hstart, bytes_ofSealed, hfields, ← List.append_assoc, List.drop_left']
    · exact List.prefix_append _ _
    · rw [List.length_append, length_toStored]
  unfold Image.filter
  rw [if_pos hle]
  dsimp only
  rw [UInt64.toNat_sub_of_le _ _ hle, hstart, htrailer, Nat.add_sub_cancel_left,
    readAt_eq hlies (takes_exactly rfl)]
  dsimp only [bind, Except.bind]
  have hdecode := filter.takes_encode.run []
  rw [List.append_nil] at hdecode
  exact hdecode

/-- Descriptor and filter are read back as they were. -/
theorem descriptor_eq (hflag : d.hasFilter = f.isSome) : (ofSealed bytes d f).descriptor = .ok (d, f) := by
  have hbig : ¬ (ofSealed bytes d f).size < 8 := by
    rw [UInt64.lt_iff_toNat_lt, toNat_size hsize]
    exact Nat.not_lt.mpr (Nat.le_add_left _ _)
  have htrailer := readAt_eq (trailer_lies hsize)
    (takes_exactly (Bytes.LittleEndian.length_ofNat 8 (PageRef.ofNat bytes.length).id.toNat))
  have hoffset : UInt64.ofNat (Bytes.LittleEndian.toNat (Bytes.ofWord64 (PageRef.ofNat bytes.length).id))
      = UInt64.ofNat bytes.length := by
    rw [Bytes.ofWord64, Bytes.LittleEndian.toNat_ofNat (UInt64.toNat_lt _), UInt64.ofNat_toNat]
    rfl
  have hpage : (ofSealed bytes d f).readAt (UInt64.ofNat bytes.length)
      ((ofSealed bytes d f).headed (UInt64.ofNat bytes.length))
      = .ok (Header.ofPayload .descriptor d.encode, d.encode) := by
    refine readAt_eq (List.IsPrefix.trans ?_ (descriptor_lies hsize)) (takes_headed hsize ?_ ?_)
    · rw [toBytes_eq]
      exact List.prefix_append _ _
    · rw [d.length_encode]
      decide
    · rw [toNat_start hsize, length_ofSealed, d.length_encode]
      omega
  have hdecode := d.takes_encode.run []
  rw [List.append_nil] at hdecode
  unfold descriptor
  rw [if_neg hbig]
  dsimp only [StoredPage.linkSize]
  rw [htrailer]
  dsimp only [bind, Except.bind]
  rw [hoffset, hpage]
  dsimp only
  rw [if_neg (fun h => h rfl), hdecode]
  dsimp only
  cases f with
  | none =>
    rw [if_neg (by simp [hflag])]
    rfl
  | some filter =>
    rw [if_pos (by simp [hflag]), filter_eq hsize rfl]
    rfl

end Image

end PagedIndex
