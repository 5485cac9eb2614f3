import PagedIndex.Proofs.Checksum
import PagedIndex.Proofs.Image.Reopened

/-!
# Images with a damaged payload

If up to four bytes next to each other are other ones than were stored in the payload of a page, the image is laid out
as it was, but for one payload, which has the same length and another checksum (`Tree.damaged_overwrite`). The page is
not read any more (`Tree.Damaged.page_eq`), and everything else in the image is: the other pages
(`Tree.Damaged.page_eq_of_ne`), the descriptor and the filter (`Tree.Damaged.descriptor_eq`).
-/

namespace PagedIndex

open PagedIndex.Action Reader

/-! ## Other bytes -/

namespace Image

/-- The image with other bytes from an offset on. -/
def overwrite (image : Image) (offset : Nat) (new : List UInt8) : Image :=
  ⟨image.bytes.take offset ++ new ++ image.bytes.drop (offset + new.length)⟩

theorem overwrite_window {image : Image} {front window back new : List UInt8}
    (himage : image.bytes = front ++ window ++ back) (hlen : window.length = new.length) :
    image.overwrite front.length new = ⟨front ++ new ++ back⟩ := by
  have hdrop : image.bytes.drop (front.length + new.length) = back := by
    rw [himage, ← hlen, ← List.length_append, List.drop_left]
  have htake : image.bytes.take front.length = front := by
    rw [himage, List.append_assoc, List.take_left]
  rw [overwrite, hdrop, htake]

/-- Behind the header of another payload there is no page. -/
theorem page_of_checksum_ne {image : Image} {offset : UInt64} {kind : PageKind} {payload other : List UInt8}
    (hsize : image.bytes.length < 2 ^ 64) (hpayload : payload.length < 2 ^ 32) (hlen : other.length = payload.length)
    (hne : Crc32.checksum payload ≠ Crc32.checksum other)
    (hlies : (Header.ofPayload kind payload).encode ++ other <+: image.bytes.drop offset.toNat) :
    image.page offset = .error (.failed (.checksum offset.toNat)) := by
  have hlength := Header.length_ofPayload hpayload kind
  have hfit := hlies.length_le
  have hpos : 0 < Header.byteSize := by decide
  rw [List.length_append, Header.length_encode, List.length_drop, hlen] at hfit
  have hinside :
      offset.toNat + Header.byteSize + (Header.ofPayload kind payload).length.toNat ≤ image.bytes.length := by
    omega
  obtain ⟨hstart, hend⟩ := not_beyond hsize hinside
  obtain ⟨rest, hrest⟩ := hlies
  have hheaded : Fails (image.headed offset) ((Header.ofPayload kind payload).encode ++ (other ++ rest))
      (.checksum offset.toNat) rest := by
    unfold headed
    rw [if_neg hstart]
    refine Runs.fails (Header.takes_encode _ _) ?_
    rw [if_neg hend]
    refine Runs.fails (takes_exactly (hlen.trans hlength.symm) rest) ?_
    rw [if_pos (by simpa [Header.accepts, Header.ofPayload] using hne)]
    exact (fails_fail _ _).bind _
  rw [page, readAt, ← hrest, List.append_assoc]
  exact run_of_fails (hheaded.bind _)

end Image

/-- The bytes of a page, other ones being in the place of its payload. -/
def StoredPage.bytesAround (page : StoredPage) (payload : List UInt8) : List UInt8 :=
  (Header.ofPayload page.kind page.payload).encode ++ payload
    ++ (if page.kind = .leaf then Bytes.ofWord64 (PageRef.toLink page.right) else [])

theorem StoredPage.length_bytesAround {page : StoredPage} {payload : List UInt8}
    (h : payload.length = page.payload.length) : (page.bytesAround payload).length = page.byteSize := by
  rw [← length_toBytes, Image.toBytes_eq, bytesAround]
  simp only [List.length_append, h]

/-- Up to four other bytes in a row within a payload make a payload of the same length and another checksum. -/
theorem Image.overwrite_payload {image : Image} {page : StoredPage} {front back new : List UInt8} {position : Nat}
    (himage : image.bytes = front ++ page.toBytes ++ back) (hnew : new.length ≤ 4)
    (hinside : position + new.length ≤ page.payload.length)
    (hne : image.overwrite (front.length + Header.byteSize + position) new ≠ image) :
    ∃ other, other.length = page.payload.length ∧ Crc32.checksum page.payload ≠ Crc32.checksum other
      ∧ image.overwrite (front.length + Header.byteSize + position) new
        = ⟨front ++ page.bytesAround other ++ back⟩ := by
  -- the bytes that are replaced, and the payload around them
  obtain ⟨before, window, after, hpayload, hbefore, hwindow⟩ : ∃ before window after,
      page.payload = before ++ window ++ after ∧ before.length = position ∧ window.length = new.length := by
    refine ⟨page.payload.take position, (page.payload.drop position).take new.length,
      (page.payload.drop position).drop new.length, ?_, ?_, ?_⟩
    · rw [List.append_assoc, List.take_append_drop, List.take_append_drop]
    · exact List.length_take_of_le (Nat.le_trans (Nat.le_add_right _ _) hinside)
    · refine List.length_take_of_le ?_
      rw [List.length_drop]
      omega
  have haround : image.bytes = (front ++ (Header.ofPayload page.kind page.payload).encode ++ before) ++ window
      ++ (after ++ (if page.kind = .leaf then Bytes.ofWord64 (PageRef.toLink page.right) else []) ++ back) := by
    rw [himage, toBytes_eq]
    conv_lhs => rw [hpayload]
    simp only [List.append_assoc, hpayload]
  have hfront : (front ++ (Header.ofPayload page.kind page.payload).encode ++ before).length
      = front.length + Header.byteSize + position := by
    rw [List.length_append, List.length_append, Header.length_encode, hbefore]
  rw [← hfront, overwrite_window haround hwindow] at hne ⊢
  have hother : window ≠ new := by
    rintro rfl
    exact hne (congrArg Image.mk haround.symm)
  refine ⟨before ++ new ++ after, ?_, ?_, ?_⟩
  · rw [hpayload]
    simp only [List.length_append, hwindow]
  · rw [hpayload]
    exact Crc32.checksum_ne_of_window (hwindow ▸ hnew) hwindow.symm hother before after
  · rw [StoredPage.bytesAround]
    simp only [List.append_assoc]

/-! ## Another payload -/

section

variable {K I : Type} [IndexKey K] [Codec I] {tree : Tree K I} {t u v : Subtree K I} {f : PageRef → PageRef}
  {bytes : List UInt8} {image : Image}

open Subtree

/-- The image of the tree, other bytes with another checksum being in the place of the payload of the page `u`. -/
inductive Tree.Damaged (tree : Tree K I) (f : PageRef → PageRef) (bytes : List UInt8) (t u : Subtree K I) :
    Image → Prop
  | intro {as bs : List (Subtree K I)} {other : List UInt8} : t.stowed = as ++ u :: bs →
    other.length = (u.rename f).stored.payload.length →
    Crc32.checksum (u.rename f).stored.payload ≠ Crc32.checksum other →
    Damaged tree f bytes t u (.ofSealed (bytes ++ laid f as ++ (u.rename f).stored.bytesAround other ++ laid f bs)
      (tree.descriptor f (tree.filter t)) (tree.filter t))

/-- The pages in front of a page and those behind it. -/
theorem laid_cons (u : Subtree K I) (us : List (Subtree K I)) :
    laid f (u :: us) = (u.rename f).stored.toBytes ++ laid f us := List.flatMap_cons

/-- The offset of a page is its name. -/
theorem Tree.toNat_offset (hplaced : Placed f bytes.length t.stowed)
    (hsize : (tree.image f bytes t).bytes.length < 2 ^ 64 - 2) {as bs : List (Subtree K I)}
    (hstowed : t.stowed = as ++ u :: bs) : (f u.ref).id.toNat = (bytes ++ laid f as).length := by
  have hlong := tree.length_image f bytes t
  rw [hstowed] at hplaced
  rw [hstowed, extent_append] at hlong
  rw [(placed_append.mp hplaced).2.1, Image.toNat_ofNat (by omega), List.length_append, length_laid]

/-- Up to four other bytes in a row damage the page in whose payload they lie. -/
theorem Tree.damaged_overwrite (hplaced : Placed f bytes.length t.stowed)
    (hsize : (tree.image f bytes t).bytes.length < 2 ^ 64 - 2) (hu : u ∈ t.subtrees) {position : Nat}
    {new : List UInt8} (hnew : new.length ≤ 4) (hinside : position + new.length ≤ u.stored.payload.length)
    (hne : (tree.image f bytes t).overwrite ((f u.ref).id.toNat + Header.byteSize + position) new
      ≠ tree.image f bytes t) :
    tree.Damaged f bytes t u
      ((tree.image f bytes t).overwrite ((f u.ref).id.toNat + Header.byteSize + position) new) := by
  obtain ⟨as, bs, hstowed⟩ := List.append_of_mem (t.stowed_perm.mem_iff.mpr hu)
  have himage : (tree.image f bytes t).bytes = (bytes ++ laid f as) ++ (u.rename f).stored.toBytes ++ (laid f bs
      ++ (Image.sealing (bytes ++ laid f t.stowed).length (tree.descriptor f (tree.filter t))
        (tree.filter t)).flatten) := by
    rw [Tree.image, Image.ofSealed, hstowed, laid_append, laid_cons]
    simp only [List.append_assoc]
  rw [Tree.toNat_offset hplaced hsize hstowed] at hne ⊢
  rw [← length_payload_rename (f := f)] at hinside
  obtain ⟨other, hlength, hchecksum, hoverwrite⟩ := Image.overwrite_payload himage hnew hinside hne
  rw [hoverwrite]
  -- the pages take up as much room as before, so that the descriptor is where it was
  have hlaid : (bytes ++ laid f t.stowed).length
      = (bytes ++ laid f as ++ (u.rename f).stored.bytesAround other ++ laid f bs).length := by
    rw [hstowed, laid_append, laid_cons]
    simp only [List.length_append, StoredPage.length_bytesAround hlength, StoredPage.length_toBytes]
    omega
  have hdamaged : tree.Damaged f bytes t u _ := .intro hstowed hlength hchecksum
  rwa [Image.ofSealed, ← hlaid, List.append_assoc (bytes ++ laid f as ++ _)] at hdamaged

namespace Tree.Damaged

variable (h : tree.Damaged f bytes t u image)

include h

/-- As many bytes as before. -/
theorem length_eq : image.bytes.length = (tree.image f bytes t).bytes.length := by
  obtain ⟨hstowed, hlength, -⟩ := h
  rw [Tree.image, Image.length_ofSealed, Image.length_ofSealed, hstowed, laid_append, laid_cons]
  simp only [List.length_append, StoredPage.length_bytesAround hlength, StoredPage.length_toBytes]
  omega

variable (hsize : (tree.image f bytes t).bytes.length < 2 ^ 64 - 2)

include hsize

/-- Descriptor and filter are read back as they were. -/
theorem descriptor_eq : image.descriptor = .ok (tree.descriptor f (tree.filter t), tree.filter t) := by
  have hlength := h.length_eq
  obtain ⟨-, -, -⟩ := h
  exact Image.descriptor_eq (by omega) rfl

variable (hplaced : Placed f bytes.length t.stowed)

include hplaced

/-- The damaged page is not read. -/
theorem page_eq (hpayload : u.stored.payload.length < 2 ^ 32) :
    image.page (f u.ref).id = .error (.failed (.checksum (f u.ref).id.toNat)) := by
  have himage := h.length_eq
  obtain @⟨as, bs, other, hstowed, hlength, hchecksum⟩ := h
  have hlies : (Header.ofPayload (u.rename f).stored.kind (u.rename f).stored.payload).encode ++ other
      <+: (bytes ++ laid f as ++ (u.rename f).stored.bytesAround other ++ laid f bs
        ++ (Image.sealing (bytes ++ laid f as ++ (u.rename f).stored.bytesAround other ++ laid f bs).length
          (tree.descriptor f (tree.filter t)) (tree.filter t)).flatten).drop (f u.ref).id.toNat := by
    rw [Tree.toNat_offset hplaced hsize hstowed, List.append_assoc, List.append_assoc, List.drop_left,
      StoredPage.bytesAround, List.append_assoc]
    exact List.prefix_append _ _
  exact Image.page_of_checksum_ne (by omega) (by rwa [length_payload_rename]) hlength hchecksum hlies

omit hsize in
/-- Every other page lies where it lay. -/
theorem exists_lies (hv : v ∈ t.subtrees) (hne : v.ref ≠ u.ref) :
    ∃ n, f v.ref = .ofNat n ∧ n < image.bytes.length ∧ (v.rename f).stored.toBytes <+: image.bytes.drop n := by
  obtain @⟨as, bs, other, hstowed, hlength, -⟩ := h
  rw [hstowed] at hplaced
  obtain ⟨hfront, -, hback⟩ := placed_append.mp hplaced
  have hmem := t.stowed_perm.mem_iff.mpr hv
  rw [hstowed, List.mem_append, List.mem_cons] at hmem
  rw [Image.ofSealed]
  rcases hmem with hmem | rfl | hmem
  · obtain ⟨n, hname, hn, hlies⟩ := hfront.exists_lies ((u.rename f).stored.bytesAround other ++ (laid f bs
      ++ (Image.sealing (bytes ++ laid f as ++ (u.rename f).stored.bytesAround other ++ laid f bs).length
        (tree.descriptor f (tree.filter t)) (tree.filter t)).flatten)) hmem
    refine ⟨n, hname, ?_, ?_⟩
    · simp only [List.length_append, length_laid]
      omega
    · simp only [List.append_assoc] at hlies ⊢
      exact hlies
  · exact absurd rfl hne
  · have hlen : (bytes ++ laid f as ++ (u.rename f).stored.bytesAround other).length
        = bytes.length + extent as + u.stored.byteSize := by
      rw [List.length_append, List.length_append, length_laid, StoredPage.length_bytesAround hlength,
        byteSize_rename]
    rw [← hlen] at hback
    obtain ⟨n, hname, hn, hlies⟩ := hback.exists_lies _ hmem
    refine ⟨n, hname, Nat.lt_of_lt_of_le hn ?_, hlies⟩
    show _ ≤ (bytes ++ laid f as ++ (u.rename f).stored.bytesAround other ++ laid f bs ++ _).length
    simp only [List.length_append, length_laid]
    exact Nat.le_add_right _ _

/-- Every other page is read as before. -/
theorem page_eq_of_ne (hv : v ∈ t.subtrees) (hne : v.ref ≠ u.ref) (hpayload : v.stored.payload.length < 2 ^ 32) :
    image.page (f v.ref).id = (tree.image f bytes t).page (f v.ref).id := by
  obtain ⟨n, hname, hn, hlies⟩ := h.exists_lies hplaced hv hne
  obtain ⟨n', hname', hn', hlies'⟩ := hplaced.exists_lies _ (t.stowed_perm.mem_iff.mpr hv)
  have hlong := tree.length_image f bytes t
  have himage := h.length_eq
  have hid : (f v.ref).id.toNat = n := by rw [hname, Image.toNat_ofNat (by omega)]
  have hid' : (f v.ref).id.toNat = n' := by rw [hname', Image.toNat_ofNat (by omega)]
  rw [← length_payload_rename (f := f)] at hpayload
  rw [Image.page_eq (by omega) hpayload (hid ▸ hlies)]
  exact (Image.page_eq (by omega) hpayload (hid' ▸ hlies')).symm

end Tree.Damaged

end

end PagedIndex
