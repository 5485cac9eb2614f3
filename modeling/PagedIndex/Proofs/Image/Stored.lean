import PagedIndex.Proofs.Taking
import PagedIndex.Image.Basic
import Mathlib.Data.List.Infix

/-!
# Pages are read back

What was stored of a page is found again at the offset where it lies, among whatever other bytes (`page_eq`). The
image must be short enough for offsets to be words, and the payload for its length to fit the header.
-/

namespace PagedIndex

open Reader

namespace Header

/-- The bytes of a header. The one that names the kind may be any byte, not only one that is ever written. -/
def form (kind : UInt8) (checksum length : UInt32) : List UInt8 :=
  kind :: Bytes.ofWord32 checksum ++ Bytes.ofWord32 length

theorem length_form (kind : UInt8) (checksum length : UInt32) : (form kind checksum length).length = byteSize := by
  simp [form, Bytes.ofWord32, byteSize]

theorem takes_form (kind : UInt8) (checksum length : UInt32) :
    Takes decode (form kind checksum length) { kind := .ofByte kind, checksum, length } := by
  have hfields : Takes (do
      let kind ← byte
      let checksum ← word32
      let length ← word32
      return ({ kind := .ofByte kind, checksum, length } : Header)) (form kind checksum length)
      { kind := .ofByte kind, checksum, length } := by
    refine ((takes_byte kind).bind ((takes_word32 checksum).bind ((takes_word32 length).map ?_))).congr ?_
    · rfl
    · exact (List.append_assoc _ _ _).symm
  unfold decode
  exact hfields.require (Nat.le_of_eq (length_form kind checksum length).symm)

theorem takes_encode (header : Header) : Takes decode header.encode header := by
  have h := takes_form header.kind.toByte header.checksum header.length
  rwa [PageKind.ofByte_toByte] at h

theorem length_ofPayload {payload : List UInt8} (h : payload.length < 2 ^ 32) (kind : PageKind) :
    (ofPayload kind payload).length.toNat = payload.length := UInt32.toNat_ofNat_of_lt h

end Header

namespace Image

variable {image : Image} {offset : UInt64}

theorem size_eq (h : image.bytes.length < 2 ^ 64) : image.size.toNat = image.bytes.length :=
  UInt64.toNat_ofNat_of_lt h

theorem saturatingAdd_eq {a b : UInt64} (h : a.toNat + b.toNat < 2 ^ 64) :
    (saturatingAdd a b).toNat = a.toNat + b.toNat := by
  have hsum : (a + b).toNat = a.toNat + b.toNat := by
    rw [UInt64.toNat_add]
    omega
  have hle : ¬ a + b < a := by
    rw [UInt64.lt_iff_toNat_lt, hsum]
    omega
  rw [saturatingAdd, if_neg hle, hsum]

/-- A reader that stands in front of what it takes. -/
theorem readAt_eq {α : Type} {read : Reader α} {bytes : List UInt8} {a : α}
    (hlies : bytes <+: image.bytes.drop offset.toNat) (h : Takes read bytes a) :
    image.readAt offset read = .ok a := by
  obtain ⟨rest, hrest⟩ := hlies
  rw [readAt, ← hrest]
  exact h.run rest

/-- Where an image has room for a header and a payload, reading them does not go beyond its end. -/
theorem not_beyond {length : UInt32} (hsize : image.bytes.length < 2 ^ 64)
    (hfit : offset.toNat + Header.byteSize + length.toNat ≤ image.bytes.length) :
    ¬ saturatingAdd offset (UInt64.ofNat Header.byteSize) > image.size
      ∧ ¬ offset + UInt64.ofNat Header.byteSize + length.toUInt64 > image.size := by
  have hnine : (UInt64.ofNat Header.byteSize).toNat = Header.byteSize := rfl
  constructor
  · rw [gt_iff_lt, UInt64.lt_iff_toNat_lt, size_eq hsize, saturatingAdd_eq (by omega), hnine]
    omega
  · rw [gt_iff_lt, UInt64.lt_iff_toNat_lt, size_eq hsize, UInt64.toNat_add, UInt64.toNat_add, hnine,
      UInt32.toNat_toUInt64]
    omega

/-- Header and payload are found where they lie. -/
theorem takes_headed {kind : PageKind} {payload : List UInt8} (hsize : image.bytes.length < 2 ^ 64)
    (hpayload : payload.length < 2 ^ 32)
    (hfit : offset.toNat + Header.byteSize + payload.length ≤ image.bytes.length) :
    Takes (image.headed offset) ((Header.ofPayload kind payload).encode ++ payload)
      (.ofPayload kind payload, payload) := by
  have hlength := Header.length_ofPayload hpayload kind
  obtain ⟨hstart, hend⟩ := not_beyond hsize (hlength ▸ hfit)
  have haccepts : (!(Header.ofPayload kind payload).accepts payload) = false := by
    simp [Header.accepts, Header.ofPayload]
  unfold headed
  rw [if_neg hstart]
  refine Takes.bind (Header.takes_encode _) ?_
  rw [if_neg hend]
  refine (takes_exactly hlength.symm).map ?_
  rw [haccepts]
  rfl

/-- The page as it is read back: only a leaf has a link, and the name of no page is none. -/
def asRead (page : StoredPage) : StoredPage :=
  { page with right := if page.kind = .leaf then PageRef.ofLink (PageRef.toLink page.right) else none }

theorem takes_link (kind : PageKind) (word : UInt64) : Takes (link kind)
    (if kind = .leaf then Bytes.ofWord64 word else []) (if kind = .leaf then PageRef.ofLink word else none) := by
  unfold link
  by_cases hkind : kind = .leaf
  · rw [if_pos hkind, if_pos hkind, if_pos hkind]
    refine (takes_exactly (Bytes.LittleEndian.length_ofNat _ _)).map ?_
    rw [Bytes.LittleEndian.toNat_ofNat (by exact word.toNat_lt), UInt64.ofNat_toNat]
  · rw [if_neg hkind, if_neg hkind, if_neg hkind]
    exact takes_pure none

theorem toBytes_eq (page : StoredPage) : page.toBytes = (Header.ofPayload page.kind page.payload).encode
    ++ page.payload ++ (if page.kind = .leaf then Bytes.ofWord64 (PageRef.toLink page.right) else []) := by
  rw [StoredPage.toBytes, StoredPage.fields, List.flatten_cons, List.flatten_cons, List.append_assoc]
  split <;> simp

/-- A page is found where it lies. -/
theorem page_eq {page : StoredPage} (hsize : image.bytes.length < 2 ^ 64)
    (hpayload : page.payload.length < 2 ^ 32) (hlies : page.toBytes <+: image.bytes.drop offset.toNat) :
    image.page offset = .ok (asRead page) := by
  have hlen := hlies.length_le
  rw [List.length_drop, StoredPage.length_toBytes, StoredPage.byteSize] at hlen
  have hpos : 0 < Header.byteSize := by decide
  refine readAt_eq hlies ?_
  rw [toBytes_eq]
  refine (takes_headed hsize hpayload (by omega)).bind ?_
  exact (takes_link page.kind (PageRef.toLink page.right)).map rfl

/-- What was stored of a node is read back as it is, unless it names no page as the next one. -/
theorem asRead_of_ne {page : StoredPage} (hleaf : page.kind = .leaf → page.right ≠ some .undefined)
    (hother : page.kind ≠ .leaf → page.right = none) : asRead page = page := by
  obtain ⟨kind, payload, right⟩ := page
  unfold asRead
  dsimp only at hleaf hother ⊢
  by_cases hkind : kind = .leaf
  · rw [if_pos hkind]
    cases right with
    | none => rw [PageRef.ofLink_toLink_none]
    | some r => rw [PageRef.ofLink_toLink_of_ne fun h => hleaf hkind (congrArg some h)]
  · rw [if_neg hkind, hother hkind]

end Image

end PagedIndex
