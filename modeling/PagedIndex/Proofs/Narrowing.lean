import PagedIndex.Proofs.Image.Canonical
import PagedIndex.Proofs.Overflow

/-!
# Counts that do not fit

The number of measures is stored in two bytes, and the lengths of payloads and byte strings are stored in four. Nobody
asks whether they fit: what is stored of a count that does not is its remainder, and writing succeeds all the same
(`Pager.Shows.write_narrows`). An index with 2^16 measures or more is written, but what was written is not opened with
these measures again.
-/

namespace PagedIndex

open PagedIndex.Action Reader

/-! ## What is read of a count -/

/-- Of a byte string as many bytes are read back as its stored length says, and the others are left over. -/
theorem Codec.runs_decode_bytes (bytes rest : List UInt8) : Runs decode (encode bytes ++ rest)
    (bytes.take (bytes.length % 2 ^ 32)) (bytes.drop (bytes.length % 2 ^ 32) ++ rest) := by
  have hlength : Takes (Codec.number 4) (Bytes.LittleEndian.ofNat 4 bytes.length) (bytes.length % 2 ^ 32) :=
    takes_number_mod 4 bytes.length
  have htake : (bytes.take (bytes.length % 2 ^ 32)).length = bytes.length % 2 ^ 32 :=
    List.length_take_of_le (Nat.mod_le _ _)
  have hstored : encode bytes ++ rest = Bytes.LittleEndian.ofNat 4 bytes.length
      ++ (bytes.take (bytes.length % 2 ^ 32) ++ (bytes.drop (bytes.length % 2 ^ 32) ++ rest)) := by
    rw [← List.append_assoc (bytes.take _), List.take_append_drop, ← List.append_assoc]
    rfl
  rw [hstored]
  exact (hlength _).bind ((takes_take htake).require (Nat.le_of_eq htake.symm) _)

namespace StoredPage

variable {K I : Type} [Codec K] [Codec I]

/-- A payload begins with the number of its values. -/
theorem toNat_take_payload (node : Node K I) (ms : List Int64) :
    Bytes.LittleEndian.toNat ((ofNode node ms).payload.take 2) = ms.length % 2 ^ 16 := by
  rw [payload_ofNode, encodeMeasures, List.append_assoc,
    List.take_left' (Bytes.LittleEndian.length_ofNat 2 ms.length), Bytes.LittleEndian.toNat_ofNat_mod]
  rfl

/-- No more values are read from a payload than two bytes can count. -/
theorem length_measures_lt {page : StoredPage} {node : Node K I} {ms : List Int64}
    (h : page.decode = .ok (node, ms)) : ms.length < 2 ^ 16 := by
  obtain ⟨_, hmeasures, -⟩ := exists_runs_of_decode h
  exact (inverts_decodeMeasures.canonical hmeasures).2

end StoredPage

namespace Image

variable {image : Image} {offset : UInt64}

theorem length_of_runs_headed {kind : PageKind} {payload rest mid : List UInt8} {found : Header × List UInt8}
    (h : Runs (image.headed offset) ((Header.ofPayload kind payload).encode ++ rest) found mid) :
    found.2.length = payload.length % 2 ^ 32 := by
  obtain ⟨-, h⟩ := Runs.of_check h
  obtain ⟨header, mid', hheader, h⟩ := h.of_bind
  obtain ⟨rfl, -⟩ := hheader.unique (Header.takes_encode _ rest)
  obtain ⟨-, h⟩ := Runs.of_check h
  obtain ⟨bytes, mid', hbytes, h⟩ := h.of_bind
  obtain ⟨-, h⟩ := Runs.of_check h
  obtain ⟨rfl, -⟩ := (runs_pure _ _).unique h
  exact (length_of_runs_exactly hbytes).trans UInt32.toNat_ofNat'

/-- Where a page lies, a payload is read that is as long as its stored length says. -/
theorem length_of_page {page found : StoredPage} (hlies : page.toBytes <+: image.bytes.drop offset.toNat)
    (h : image.page offset = .ok found) : found.payload.length = page.payload.length % 2 ^ 32 := by
  obtain ⟨rest, hrest⟩ := hlies
  obtain ⟨_, hrun⟩ := runs_of_run_eq h
  rw [← hrest, toBytes_eq, List.append_assoc, List.append_assoc] at hrun
  obtain ⟨headed, mid, hheaded, hrun⟩ := hrun.of_bind
  obtain ⟨right, last, -, hrun⟩ := hrun.of_bind
  obtain ⟨rfl, -⟩ := (runs_pure _ _).unique hrun
  exact length_of_runs_headed hheaded

end Image

/-! ## What is written of a tree -/

section

variable {K I : Type} [IndexKey K] [Codec I] {tree : Tree K I} {view : PageRef → Option (Page K I)} {t : Subtree K I}
  {f : PageRef → PageRef} {pager pager' : Pager K I} {d : Descriptor} {writer : ImageWriter}

open Subtree

/-- What an image has of a tree, whatever its counts are. -/
structure Tree.Narrowed (tree : Tree K I) (t : Subtree K I) (f : PageRef → PageRef) (d : Descriptor) (image : Image) :
    Prop where
  descriptor : image.descriptor = .ok (d, tree.filter t)
  measures : d.measures.toNat = tree.measures.length % 2 ^ 16
  /-- Every page lies at the offset that is its name. -/
  lies : ∀ u ∈ t.subtrees, ∃ n, f u.ref = .ofNat n ∧ (u.rename f).stored.toBytes <+: image.bytes.drop n
  values : ∀ u ∈ t.subtrees,
    Bytes.LittleEndian.toNat ((u.rename f).stored.payload.take 2) = tree.measures.length % 2 ^ 16
  payload : ∀ u ∈ t.subtrees, ∀ found, image.page (f u.ref).id = .ok found →
    found.payload.length = u.stored.payload.length % 2 ^ 32
  /-- Where all counts fit, the image has the tree. -/
  shown : tree.measures.length < 2 ^ 16 → (∀ u ∈ t.subtrees, u.stored.payload.length < 2 ^ 32) →
    (t.rename f).StoredIn image.page?
  /-- Where the number of measures does not fit, it has none of its pages. -/
  hidden : 2 ^ 16 ≤ tree.measures.length → ∀ u ∈ t.subtrees, image.page? (f u.ref) ≠ some (u.rename f).page

theorem Subtree.toNat_take_stored (u : Subtree K I) :
    Bytes.LittleEndian.toNat (u.stored.payload.take 2) = u.measures.length % 2 ^ 16 :=
  StoredPage.toNat_take_payload u.page.node u.measures

/-- What was written behind no other bytes is an image of the tree, wherever the pages of the tree are. -/
theorem Pager.Shows.written_eq [Std.TransOrd K] (h : pager.Shows view) (hsize : 4 ≤ tree.config.pageSize)
    (ht : tree.Matches view t) (hplaced : Placed f 0 t.stowed) {room : Option Nat}
    (hrun : Runs tree.write (pager, .ofSink ⟨[], room⟩) d (pager', writer)) :
    d = tree.descriptor f (tree.filter t) ∧ writer.sink.written = (tree.image f [] t).bytes := by
  obtain ⟨srv, hands, hserves⟩ := h.exists_service
  obtain ⟨_, hcarries⟩ := hands.carries hsize ht
  have hempty : ImageWriter.ofSink ⟨[], room⟩ = .filled room [] := by cases room <;> rfl
  rw [hempty] at hrun
  rcases Tree.puts_write hcarries (hands.refs_le ht) hands.wide hplaced [] pager rfl (Sink.fits_nil room) hserves with
    ⟨_, _, rfl, -, hwritten, -⟩ | ⟨_, _, _, -, hfails, -⟩
  · obtain ⟨rfl, heq⟩ := hrun.unique hwritten
    obtain ⟨-, rfl⟩ := Prod.mk.inj heq
    exact ⟨rfl, tree.bytes_blocks f [] t⟩
  · exact absurd hrun hfails.not_runs

/-- An image of a tree has its counts as far as they fit. -/
theorem Tree.Matches.narrowed [Std.TransOrd K] [LawfulCodec K] [LawfulCodec I] (ht : tree.Matches view t)
    (hvalid : tree.config.validate = .ok ()) (hm : t.Measured tree.measures) (hplaced : Placed f 0 t.stowed)
    (hsize : (tree.image f [] t).bytes.length < 2 ^ 64 - 2) :
    tree.Narrowed t f (tree.descriptor f (tree.filter t)) (tree.image f [] t) := by
  have hcount : ∀ u ∈ t.subtrees, (u.rename f).measures.length = tree.measures.length := by
    intro u hu
    rw [measures_rename, hm u hu, MeasureSet.length_ofItems]
  have hlies : ∀ u ∈ t.subtrees, ∃ n, f u.ref = .ofNat n ∧ n < (tree.image f [] t).bytes.length
      ∧ (u.rename f).stored.toBytes <+: (tree.image f [] t).bytes.drop n := by
    intro u hu
    have hbehind : Placed f ([] : List UInt8).length t.stowed := hplaced
    exact exists_lies_image hbehind rfl hu
  refine ⟨Image.descriptor_eq (Nat.lt_trans hsize (by decide)) rfl, UInt16.toNat_ofNat', ?_, ?_, ?_, ?_, ?_⟩
  · intro u hu
    obtain ⟨n, hname, -, hlies⟩ := hlies u hu
    exact ⟨n, hname, hlies⟩
  · intro u hu
    rw [toNat_take_stored, hcount u hu]
  · intro u hu found hfound
    obtain ⟨n, hname, hn, hlies⟩ := hlies u hu
    have hoffset : (f u.ref).id.toNat = n := by
      rw [hname]
      exact Image.toNat_ofNat (by omega)
    rw [← length_payload_rename (f := f)]
    exact Image.length_of_page (hoffset ▸ hlies) hfound
  · intro hfits hpayload
    exact (ht.written hvalid hm (Nat.le_of_lt_succ hfits) hpayload hplaced hsize tree.config).stored
  · intro hlong u hu hpage
    obtain ⟨-, -, stored, -, hdecode⟩ := Image.page?_eq_some.mp hpage
    have hlt := StoredPage.length_measures_lt hdecode
    rw [measures_page, hcount u hu] at hlt
    omega

/-- Whatever a tree counts, it is written, and what is stored of its counts is their remainders. What was written, with
however much room, is opened with the measures of the tree for any configuration if there are less than 2^16 of them.
If there are more it is not, because the descriptor has another number of measures. A byte string too is read back up
to the remainder of its length. -/
theorem Pager.Shows.write_narrows [LawfulKey K] [LawfulCodec I] (h : pager.Shows view) (ht : tree.Matches view t)
    (hvalid : tree.config.validate = .ok ()) (hm : t.Measured tree.measures) :
    (∃ d pager' writer, Runs tree.write (pager, .ofSink .unlimited) d (pager', writer))
    ∧ (∀ room d pager' writer, Runs tree.write (pager, .ofSink ⟨[], room⟩) d (pager', writer) →
      writer.sink.written.length < 2 ^ 64 - 2 → ∃ f, tree.Narrowed t f d ⟨writer.sink.written⟩
        ∧ ∀ config : Config, config.filterRate.isProper = true → ∀ capacity,
          (tree.measures.length < 2 ^ 16 → ∃ opened : Pager K I,
            Runs (Tree.openStored config tree.measures tree.keyOf) (Pager.ofImage ⟨writer.sink.written⟩ capacity)
              (tree.rename f config) opened)
          ∧ (2 ^ 16 ≤ tree.measures.length → ∃ opened : Pager K I,
            Fails (Tree.openStored config tree.measures tree.keyOf) (Pager.ofImage ⟨writer.sink.written⟩ capacity)
              (.invalidConfig (.measureCount (tree.measures.length % 2 ^ 16) tree.measures.length)) opened))
    ∧ ∀ bytes rest : List UInt8, Runs Codec.decode (Codec.encode bytes ++ rest)
        (bytes.take (bytes.length % 2 ^ 32)) (bytes.drop (bytes.length % 2 ^ 32) ++ rest) := by
  have hpageSize := (Config.of_validate hvalid).1
  obtain ⟨f, hplaced⟩ := ht.exists_placed 0
  refine ⟨?_, fun room d pager' writer hrun hsize => ⟨f, ?_⟩, Codec.runs_decode_bytes⟩
  · obtain ⟨pager', writer, hrun, -⟩ := h.write_runs hpageSize ht hplaced ImageWriter.wrote_nil
    exact ⟨_, pager', writer, hrun⟩
  obtain ⟨rfl, hwritten⟩ := h.written_eq hpageSize ht hplaced hrun
  rw [hwritten] at hsize ⊢
  have hnarrowed := ht.narrowed hvalid hm hplaced hsize
  refine ⟨hnarrowed, fun config hrate capacity => ⟨fun hfits => ?_, fun hlong => ?_⟩⟩
  · obtain ⟨opened, hopen, -⟩ := Tree.reopen_runs ht hvalid (Nat.le_of_lt_succ hfits) hsize hrate capacity
    exact ⟨opened, hopen⟩
  · have hother : (tree.descriptor f (tree.filter t)).measures.toNat ≠ tree.measures.length := by
      rw [hnarrowed.measures]
      omega
    have hfails := Tree.openStored_fails (K := K) hnarrowed.descriptor hother config tree.keyOf capacity
    rwa [hnarrowed.measures] at hfails

end

/-! ## A new index with many measures -/

namespace Index

/-- A new index that counts its items `n` times over. -/
def counting (n : Nat) : Index UInt64 UInt64 := fresh { pageSize := 4 } (List.replicate n .count) id

/-- The only page of that index. -/
def uncounted (n : Nat) : Subtree UInt64 UInt64 :=
  .leaf ⟨0⟩ (MeasureSet.identity (List.replicate n (.count : Measure UInt64))) .empty

theorem length_measures_counting (n : Nat) : (counting n).tree.measures.length = n := List.length_replicate

theorem start_counting (n : Nat) : Start (counting n) 1 := .created (Tree.create_runs _ _ rfl)

theorem shows_counting (n : Nat) : (counting n).pager.Shows (counting n).pager.page?
    ∧ (counting n).tree.Matches (counting n).pager.page? (uncounted n)
    ∧ (uncounted n).Measured (counting n).tree.measures := by
  have hholds : Holds (counting n) 0 (uncounted n) := holds_fresh _ id (by decide)
  refine ⟨hholds.ready.shows (show (1 : UInt64).toNat ≤ 2 ^ 64 - 2 by decide) rfl, ?_, Subtree.measured_leaf.mpr rfl⟩
  exact matches_iff.mp ((matches_iff_holds hholds.ready hholds.pageSize).mpr ⟨0, hholds⟩)

theorem length_image_counting (n : Nat) (f : PageRef → PageRef) :
    ((counting n).tree.image f [] (uncounted n)).bytes.length = n * 8 + 75 := by
  have hbody : (StoredPage.encodeBody (.leaf .empty : Node UInt64 UInt64)).length = 4 := rfl
  have hpage : (uncounted n).stored.byteSize = 9 + (2 + n * 8 + 4) + 8 := by
    show 9 + (StoredPage.ofNode (.leaf .empty : Node UInt64 UInt64) (uncounted n).measures).payload.length + 8 = _
    rw [StoredPage.payload_ofNode, List.length_append, StoredPage.length_encodeMeasures, hbody, uncounted,
      Subtree.measures, MeasureSet.identity, List.length_map, List.length_replicate]
  have hfields : (ImageWriter.filterFields none).flatten.length = 0 := rfl
  have hfilter : (counting n).tree.filter (uncounted n) = none := rfl
  have hstowed : (uncounted n).stowed = [uncounted n] := by
    rw [uncounted, Subtree.stowed, Subtree.tips_leaf, Subtree.inners_leaf, List.append_nil]
  rw [Tree.image, hfilter, Image.length_ofSealed, hfields, List.nil_append, Subtree.length_laid, hstowed,
    Subtree.extent, Subtree.extent, hpage, Header.byteSize, Descriptor.byteSize]
  omega

/-- What is written of that index is little more than the values of its measures. -/
theorem length_written_counting {n : Nat} {room : Option Nat} {d : Descriptor} {pager' : Pager UInt64 UInt64}
    {writer : ImageWriter}
    (hrun : Runs (counting n).tree.write ((counting n).pager, .ofSink ⟨[], room⟩) d (pager', writer)) :
    writer.sink.written.length = n * 8 + 75 := by
  obtain ⟨hshows, hmatches, -⟩ := shows_counting n
  obtain ⟨f, hplaced⟩ := hmatches.exists_placed 0
  rw [(hshows.written_eq (show 4 ≤ 4 by decide) hmatches hplaced hrun).2, length_image_counting]

/-- An index with 65,537 measures is written, and its descriptor counts one of them. -/
theorem write_narrows_counting : (counting 65537).pager.Shows (counting 65537).pager.page?
    ∧ (counting 65537).tree.Matches (counting 65537).pager.page? (uncounted 65537)
    ∧ (counting 65537).tree.config.validate = .ok ()
    ∧ (uncounted 65537).Measured (counting 65537).tree.measures
    ∧ ∃ d pager' writer,
      Runs (counting 65537).tree.write ((counting 65537).pager, .ofSink .unlimited) d (pager', writer)
      ∧ writer.sink.written.length < 2 ^ 64 - 2 ∧ d.measures.toNat = 1
      ∧ ∃ opened : Pager UInt64 UInt64, Fails (Tree.openStored {} (counting 65537).tree.measures id)
        (Pager.ofImage ⟨writer.sink.written⟩ 16) (.invalidConfig (.measureCount 1 65537)) opened := by
  obtain ⟨hshows, hmatches, hmeasured⟩ := shows_counting 65537
  have hcount := length_measures_counting 65537
  obtain ⟨⟨d, pager', writer, hrun⟩, hnarrows, -⟩ := hshows.write_narrows hmatches rfl hmeasured
  have hsize : writer.sink.written.length < 2 ^ 64 - 2 := by
    rw [length_written_counting hrun]
    decide
  obtain ⟨f, hnarrowed, hopen⟩ := hnarrows none d pager' writer hrun hsize
  have hmeasures := hnarrowed.measures
  obtain ⟨opened, hfails⟩ := (hopen {} rfl 16).2 (by rw [hcount]; decide)
  rw [hcount] at hmeasures hfails
  exact ⟨hshows, hmatches, rfl, hmeasured, d, pager', writer, hrun, hsize, hmeasures, opened, hfails⟩

/-- An index with 65,536 measures is written, but what was written counts none of them and is not opened with them. -/
theorem unopened_counting : Start (counting 65536) 1 ∧ (counting 65536).tree.measures.length = 65536
    ∧ ∃ d pager' writer,
      Runs (counting 65536).tree.write ((counting 65536).pager, .ofSink .unlimited) d (pager', writer)
      ∧ d.measures.toNat ≠ 65536
      ∧ ∀ capacity, ¬ ∃ copy opened, Runs (Tree.openStored {} (counting 65536).tree.measures id)
        (Pager.ofImage ⟨writer.sink.written⟩ capacity) copy opened := by
  obtain ⟨hshows, hmatches, hmeasured⟩ := shows_counting 65536
  have hcount := length_measures_counting 65536
  obtain ⟨f, hplaced⟩ := hmatches.exists_placed 0
  have hsize : ((counting 65536).tree.image f [] (uncounted 65536)).bytes.length < 2 ^ 64 - 2 := by
    rw [length_image_counting]
    decide
  have hnarrowed := hmatches.narrowed rfl hmeasured hplaced hsize
  obtain ⟨pager', writer, hrun, hwrote⟩ := hshows.write_runs (show 4 ≤ 4 by decide) hmatches hplaced
    ImageWriter.wrote_nil
  have hzero := hnarrowed.measures
  rw [hcount] at hzero
  refine ⟨start_counting _, hcount, _, pager', writer, hrun, by rw [hzero]; decide, fun capacity => ?_⟩
  rintro ⟨copy, opened, hopen⟩
  rw [hwrote.written] at hopen
  obtain ⟨_, hfails⟩ := Tree.openStored_fails (K := UInt64) hnarrowed.descriptor
    (by rw [hzero, hcount]; decide) {} id capacity
  exact hfails.not_runs hopen

end Index

end PagedIndex
