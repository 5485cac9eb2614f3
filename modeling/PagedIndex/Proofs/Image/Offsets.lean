import PagedIndex.Proofs.Image.Room
import PagedIndex.Proofs.Image.Untrusted

/-!
# What lies at an offset

An offset may be any word, and any bytes may lie there. A page is read exactly if the bytes of one lie at the offset
(`HoldsAt`); whatever else lies there is one of four failures (`Finds`).
-/

namespace PagedIndex

open PagedIndex.Action Reader

namespace Bytes

theorem exists_ofWord32 {bs : List UInt8} (h : bs.length = 4) : ∃ n, bs = ofWord32 n := by
  have hlt := LittleEndian.toNat_lt bs
  have hbs := LittleEndian.ofNat_toNat bs
  rw [h] at hlt hbs
  refine ⟨UInt32.ofNat (LittleEndian.toNat bs), ?_⟩
  rw [ofWord32, UInt32.toNat_ofNat_of_lt' hlt, hbs]

theorem exists_ofWord64 {bs : List UInt8} (h : bs.length = 8) : ∃ n, bs = ofWord64 n := by
  have hlt := LittleEndian.toNat_lt bs
  have hbs := LittleEndian.ofNat_toNat bs
  rw [h] at hlt hbs
  refine ⟨UInt64.ofNat (LittleEndian.toNat bs), ?_⟩
  rw [ofWord64, UInt64.toNat_ofNat_of_lt' hlt, hbs]

end Bytes

namespace Header

/-- Any bytes have the form of a header in front, if there are enough of them. -/
theorem exists_form {bytes : List UInt8} (h : byteSize ≤ bytes.length) :
    ∃ kind checksum length rest, bytes = form kind checksum length ++ rest := by
  cases bytes with
  | nil => exact absurd h (by decide)
  | cons kind bytes =>
    rw [byteSize, List.length_cons] at h
    obtain ⟨checksum, hchecksum⟩ :=
      Bytes.exists_ofWord32 (List.length_take_of_le (show 4 ≤ bytes.length by omega))
    obtain ⟨length, hlength⟩ := Bytes.exists_ofWord32
      (List.length_take_of_le (show 4 ≤ (bytes.drop 4).length by rw [List.length_drop]; omega))
    refine ⟨kind, checksum, length, (bytes.drop 4).drop 4, ?_⟩
    rw [form, ← hchecksum, ← hlength, List.cons_append, List.cons_append, List.append_assoc,
      List.take_append_drop, List.take_append_drop]

end Header

namespace Image

variable {image : Image}

/-- The bytes of a page lie at an offset: a header, as many bytes of payload as it announces and with the checksum that
it gives, and behind a leaf its link. -/
def HoldsAt (image : Image) (offset : Nat) (page : StoredPage) : Prop :=
  ∃ kind checksum length link,
    Header.form kind checksum length ++ page.payload ++ (if page.kind = .leaf then Bytes.ofWord64 link else [])
      <+: image.bytes.drop offset
    ∧ page.kind = .ofByte kind ∧ page.payload.length = length.toNat ∧ Crc32.checksum page.payload = checksum
    ∧ page.right = if page.kind = .leaf then PageRef.ofLink link else none

/-- What reading at an offset comes to, by what lies there. -/
inductive Finds (image : Image) (offset : Nat) : Except (Halt IoError) StoredPage → Prop
  | noHeader (hend : image.bytes.length < offset + Header.byteSize) :
    Finds image offset (.error (.failed (.pageStart offset image.bytes.length)))
  | noPayload {kind : UInt8} {checksum length : UInt32}
    (hlies : Header.form kind checksum length <+: image.bytes.drop offset)
    (hend : image.bytes.length < offset + Header.byteSize + length.toNat) :
    Finds image offset (.error (.failed (.pageBody offset)))
  | otherPayload {kind : UInt8} {checksum length : UInt32} {payload : List UInt8}
    (hlies : Header.form kind checksum length ++ payload <+: image.bytes.drop offset)
    (hlength : payload.length = length.toNat) (hchecksum : Crc32.checksum payload ≠ checksum) :
    Finds image offset (.error (.failed (.checksum offset)))
  | noLink {kind : UInt8} {checksum length : UInt32} {payload : List UInt8}
    (hlies : Header.form kind checksum length ++ payload <+: image.bytes.drop offset)
    (hlength : payload.length = length.toNat) (hchecksum : Crc32.checksum payload = checksum)
    (hleaf : PageKind.ofByte kind = .leaf)
    (hend : image.bytes.length < offset + Header.byteSize + payload.length + StoredPage.linkSize) :
    Finds image offset (.error (.failed .shortRead))
  | page {page : StoredPage} (hholds : image.HoldsAt offset page) : Finds image offset (.ok page)

/-! ## What is read -/

variable {offset : Nat} {kind : UInt8} {checksum length : UInt32} {payload rest : List UInt8}

theorem fails_headedExact_start {bytes : List UInt8} (hend : image.bytes.length < offset + Header.byteSize) :
    Fails (image.headedExact offset) bytes (.pageStart offset image.bytes.length) bytes := by
  unfold headedExact
  rw [if_pos hend]
  exact (fails_fail _ _).bind _

theorem fails_headedExact_end (hstart : offset + Header.byteSize ≤ image.bytes.length)
    (hend : image.bytes.length < offset + Header.byteSize + length.toNat) :
    Fails (image.headedExact offset) (Header.form kind checksum length ++ rest) (.pageBody offset) rest := by
  unfold headedExact
  rw [if_neg (Nat.not_lt.mpr hstart)]
  refine Runs.fails (Header.takes_form kind checksum length rest) ?_
  rw [if_pos hend]
  exact (fails_fail _ _).bind _

theorem fails_headedExact_checksum (hend : offset + Header.byteSize + length.toNat ≤ image.bytes.length)
    (hlength : payload.length = length.toNat) (hchecksum : Crc32.checksum payload ≠ checksum) :
    Fails (image.headedExact offset) (Header.form kind checksum length ++ (payload ++ rest)) (.checksum offset)
      rest := by
  unfold headedExact
  rw [if_neg (by omega)]
  refine Runs.fails (Header.takes_form kind checksum length (payload ++ rest)) ?_
  rw [if_neg (Nat.not_lt.mpr hend)]
  refine Runs.fails (takes_exactly hlength rest) ?_
  rw [if_pos (by simp [Header.accepts, Ne.symm hchecksum])]
  exact (fails_fail _ _).bind _

theorem takes_headedExact (hend : offset + Header.byteSize + length.toNat ≤ image.bytes.length)
    (hlength : payload.length = length.toNat) (hchecksum : Crc32.checksum payload = checksum) :
    Takes (image.headedExact offset) (Header.form kind checksum length ++ payload)
      ({ kind := .ofByte kind, checksum, length }, payload) := by
  unfold headedExact
  rw [if_neg (by omega)]
  refine (Header.takes_form kind checksum length).bind ?_
  rw [if_neg (Nat.not_lt.mpr hend)]
  refine (takes_exactly hlength).map ?_
  rw [if_neg (by simp [Header.accepts, hchecksum])]

theorem fails_link (hshort : rest.length < StoredPage.linkSize) : Fails (link .leaf) rest .shortRead rest := by
  unfold link exactly
  rw [if_pos rfl]
  refine Fails.bind ((runs_left rest).fails ?_) _
  rw [if_pos hshort]
  exact fails_fail _ _

/-- A page that lies at an offset lies in the image as a whole. -/
theorem HoldsAt.le_length {page : StoredPage} (h : image.HoldsAt offset page) :
    offset + page.byteSize ≤ image.bytes.length := by
  obtain ⟨kind, checksum, length, link, hlies, -⟩ := h
  have hlen := hlies.length_le
  have hlink : (if page.kind = .leaf then Bytes.ofWord64 link else []).length
      = if page.kind = .leaf then StoredPage.linkSize else 0 := by
    split <;> simp [Bytes.ofWord64, StoredPage.linkSize]
  rw [List.length_append, List.length_append, Header.length_form, hlink, List.length_drop] at hlen
  have hpos : 0 < Header.byteSize := by decide
  rw [StoredPage.byteSize]
  omega

/-- A page that lies at an offset is what is read there. -/
theorem HoldsAt.pageExact_eq {page : StoredPage} (h : image.HoldsAt offset page) :
    image.pageExact offset = .ok page := by
  have hend := h.le_length
  obtain ⟨kind, checksum, length, word, ⟨rest, hrest⟩, hkind, hlength, hchecksum, hright⟩ := h
  rw [StoredPage.byteSize] at hend
  unfold pageExact
  rw [← hrest]
  refine Takes.run ?_ rest
  refine (takes_headedExact (by omega) hlength hchecksum).bind ?_
  rw [hkind] at hright ⊢
  refine (takes_link (.ofByte kind) word).map ?_
  rw [← hright, ← hkind]

/-- Behind a payload with its checksum only the link of a leaf can be missing. -/
theorem finds_pageExact_of_headed
    (hbytes : image.bytes.drop offset = Header.form kind checksum length ++ payload ++ rest)
    (hlength : payload.length = length.toNat) (hchecksum : Crc32.checksum payload = checksum) :
    image.Finds offset (image.pageExact offset) := by
  have hlies : Header.form kind checksum length ++ payload <+: image.bytes.drop offset := ⟨rest, hbytes.symm⟩
  have hlen := congrArg List.length hbytes
  rw [List.length_drop, List.length_append, List.length_append, Header.length_form] at hlen
  have hpos : 0 < Header.byteSize := by decide
  by_cases hleaf : PageKind.ofByte kind = .leaf
  · by_cases hshort : rest.length < StoredPage.linkSize
    · have hheaded : Runs (image.headedExact offset) (Header.form kind checksum length ++ payload ++ rest)
          ({ kind := .ofByte kind, checksum, length }, payload) rest :=
        takes_headedExact (by omega) hlength hchecksum rest
      have hlink : Fails (link (PageKind.ofByte kind)) rest .shortRead rest := by
        rw [hleaf]
        exact fails_link hshort
      unfold pageExact
      rw [hbytes, run_of_fails (hheaded.fails (hlink.bind _))]
      exact .noLink hlies hlength hchecksum hleaf (by omega)
    · obtain ⟨word, hword⟩ := Bytes.exists_ofWord64 (List.length_take_of_le (Nat.not_lt.mp hshort))
      have hholds : image.HoldsAt offset ⟨.ofByte kind, payload, PageRef.ofLink word⟩ := by
        refine ⟨kind, checksum, length, word, ⟨rest.drop 8, ?_⟩, rfl, hlength, hchecksum, ?_⟩
        · rw [if_pos hleaf, ← hword, List.append_assoc _ (rest.take _), List.take_append_drop, hbytes]
        · rw [if_pos hleaf]
      rw [hholds.pageExact_eq]
      exact .page hholds
  · have hholds : image.HoldsAt offset ⟨.ofByte kind, payload, none⟩ := by
      refine ⟨kind, checksum, length, 0, ?_, rfl, hlength, hchecksum, ?_⟩
      · rw [if_neg hleaf, List.append_nil]
        exact hlies
      · rw [if_neg hleaf]
    rw [hholds.pageExact_eq]
    exact .page hholds

/-- What reading at an offset comes to follows from what lies there. -/
theorem finds_pageExact (image : Image) (offset : Nat) : image.Finds offset (image.pageExact offset) := by
  by_cases hstart : image.bytes.length < offset + Header.byteSize
  · unfold pageExact
    rw [run_of_fails ((fails_headedExact_start hstart).bind _)]
    exact .noHeader hstart
  -- the bytes of a header are there, whatever they say
  have hroom : Header.byteSize ≤ (image.bytes.drop offset).length := by
    rw [List.length_drop]
    omega
  obtain ⟨kind, checksum, length, rest, hbytes⟩ := Header.exists_form hroom
  by_cases hend : image.bytes.length < offset + Header.byteSize + length.toNat
  · unfold pageExact
    rw [hbytes, run_of_fails ((fails_headedExact_end (by omega) hend).bind _)]
    exact .noPayload (hbytes ▸ List.prefix_append _ _) hend
  -- and so are as many bytes as it announces
  rw [hbytes, List.length_append, Header.length_form] at hroom
  have hlen := congrArg List.length hbytes
  rw [List.length_drop, List.length_append, Header.length_form] at hlen
  have hlength : (rest.take length.toNat).length = length.toNat := List.length_take_of_le (by omega)
  rw [← List.take_append_drop length.toNat rest] at hbytes
  by_cases hchecksum : Crc32.checksum (rest.take length.toNat) = checksum
  · exact finds_pageExact_of_headed (by rw [hbytes, List.append_assoc]) hlength hchecksum
  · unfold pageExact
    rw [hbytes, run_of_fails ((fails_headedExact_checksum (by omega) hlength hchecksum).bind _)]
    exact .otherPayload ⟨_, by rw [hbytes, List.append_assoc]⟩ hlength hchecksum

/-! ## What is written back -/

/-- A page that was read has the bytes from which it was read, unless its kind is one that is never written. -/
theorem HoldsAt.toBytes_eq {page : StoredPage} (h : image.HoldsAt offset page) (hkind : page.kind ≠ .invalid) :
    page.toBytes = (image.bytes.drop offset).take page.byteSize := by
  obtain ⟨kind, checksum, length, word, hlies, hofByte, hlength, hchecksum, hright⟩ := h
  have hform : Header.form kind checksum length = (Header.ofPayload page.kind page.payload).encode := by
    rw [Header.ofPayload, Header.encode, Header.form, hchecksum, hlength, UInt32.ofNat_toNat, hofByte,
      PageKind.toByte_ofByte (hofByte ▸ hkind)]
  have hlink : (if page.kind = .leaf then Bytes.ofWord64 word else [])
      = if page.kind = .leaf then Bytes.ofWord64 (PageRef.toLink page.right) else [] := by
    split
    · rename_i hleaf
      rw [hright, if_pos hleaf, PageRef.toLink_ofLink]
    · rfl
  rw [hform, hlink, ← Image.toBytes_eq] at hlies
  rw [← StoredPage.length_toBytes]
  exact List.prefix_iff_eq_take.mp hlies

theorem Finds.failed {halt : Halt IoError} (h : image.Finds offset (.error halt)) :
    ∃ e, halt = .failed e ∧ (e.kind = .unexpectedEof ∨ e.kind = .invalidData) := by
  cases h with
  | noHeader | noPayload | noLink => exact ⟨_, rfl, .inl rfl⟩
  | otherPayload => exact ⟨_, rfl, .inr rfl⟩

/-- A page is read at an offset exactly if the bytes of one lie there; these are then its bytes as it is written. In
every other case reading fails, without looking beyond the end of the image, and no sum of an offset and a length that
is compared with that end wraps. The bound is no restriction: neither a file nor a piece of memory has 2 ^ 63 bytes. -/
theorem page_exact (h : image.bytes.length + 2 ^ 32 ≤ 2 ^ 64) (offset : UInt64) :
    (∀ page, image.page offset = .ok page ↔ image.HoldsAt offset.toNat page)
    ∧ (∀ page, image.page offset = .ok page → offset.toNat + page.byteSize ≤ image.bytes.length
      ∧ (page.kind ≠ .invalid → Runs (Sink.writeAll page.fields) .unlimited ()
        ⟨(image.bytes.drop offset.toNat).take page.byteSize, none⟩))
    ∧ (∀ halt, image.page offset = .error halt →
      ∃ e, halt = .failed e ∧ (e.kind = .unexpectedEof ∨ e.kind = .invalidData))
    ∧ image.page offset = image.pageExact offset.toNat
    ∧ (saturatingAdd offset (UInt64.ofNat Header.byteSize) > image.size
      ↔ offset.toNat + Header.byteSize > image.bytes.length)
    ∧ ∀ length : UInt32, ¬ saturatingAdd offset (UInt64.ofNat Header.byteSize) > image.size →
      (offset + UInt64.ofNat Header.byteSize + length.toUInt64).toNat
        = offset.toNat + Header.byteSize + length.toNat := by
  have hexact := page_eq_pageExact h offset
  have hfinds := finds_pageExact image offset.toNat
  rw [← hexact] at hfinds
  have hholds : ∀ page, image.page offset = .ok page → image.HoldsAt offset.toNat page := by
    intro page hpage
    rw [hpage] at hfinds
    cases hfinds with
    | page hholds => exact hholds
  refine ⟨fun page => ⟨hholds page, fun hpage => hexact.trans hpage.pageExact_eq⟩, fun page hpage => ⟨?_, ?_⟩, ?_,
    hexact, start_gt_size h, fun length hstart => ?_⟩
  · exact (hholds page hpage).le_length
  · intro hkind
    rw [← (hholds page hpage).toBytes_eq hkind]
    exact Sink.writeAll_runs page.fields
  · intro halt herror
    rw [herror] at hfinds
    exact hfinds.failed
  · rw [start_gt_size h] at hstart
    exact toNat_end h (Nat.not_lt.mp hstart) length

/-- Behind one other byte a page is found at offset one, and nothing is found at the last of all offsets. -/
theorem page_behindByte : (7 :: (⟨.inner, [1, 2], none⟩ : StoredPage).toBytes).length + 2 ^ 32 ≤ 2 ^ 64
    ∧ (⟨7 :: (⟨.inner, [1, 2], none⟩ : StoredPage).toBytes⟩ : Image).page 1 = .ok ⟨.inner, [1, 2], none⟩
    ∧ ∃ e, (⟨7 :: (⟨.inner, [1, 2], none⟩ : StoredPage).toBytes⟩ : Image).page 0xFFFFFFFFFFFFFFFF
      = .error (.failed e) := by
  have hshort : (7 :: (⟨.inner, [1, 2], none⟩ : StoredPage).toBytes).length + 2 ^ 32 ≤ 2 ^ 64 := by
    rw [List.length_cons, StoredPage.length_toBytes]
    decide
  refine ⟨hshort, ?_, ?_⟩
  · refine ((page_exact hshort 1).1 _).mpr ⟨2, _, 2, 0, ?_, rfl, rfl, rfl, rfl⟩
    exact (toBytes_eq _).symm ▸ List.prefix_rfl
  · obtain ⟨-, hok, herror, -⟩ := page_exact hshort 0xFFFFFFFFFFFFFFFF
    cases hpage : (⟨7 :: (⟨.inner, [1, 2], none⟩ : StoredPage).toBytes⟩ : Image).page 0xFFFFFFFFFFFFFFFF with
    | ok page =>
      have hend := (hok page hpage).1
      have hlast : (0xFFFFFFFFFFFFFFFF : UInt64).toNat = 2 ^ 64 - 1 := rfl
      rw [hlast] at hend
      dsimp only at hend
      omega
    | error halt =>
      obtain ⟨e, rfl, -⟩ := herror halt hpage
      exact ⟨e, rfl⟩

end Image

end PagedIndex
