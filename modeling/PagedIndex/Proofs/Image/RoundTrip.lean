import PagedIndex.Proofs.Image.Written

/-!
# What a writer was given is read back

Pages lie one behind the other, each at the end of those before it, and are named by where they lie. Once the image
is sealed, every one of them is found under its name, and so are the descriptor and the filter
(`ImageWriter.reads_back`). What bytes the pages hold plays no part: nothing is ever looked for among them.
-/

namespace PagedIndex

namespace StoredPage

/-- How many bytes some pages take up together. -/
def extent : List StoredPage → Nat
  | [] => 0
  | page :: pages => page.byteSize + extent pages

/-- Where pages lie that are written one behind the other: each at the end of those before it. -/
def offsets (pages : List StoredPage) : List Nat :=
  (List.range pages.length).map fun n => extent (pages.take n)

/-- The page as an image gives it back. Only a leaf has a link, and the name of no page is none. -/
def restored (page : StoredPage) : StoredPage :=
  { page with right := if page.kind = .leaf then page.right.filter (· ≠ .undefined) else none }

theorem length_flatMap_toBytes (pages : List StoredPage) : (pages.flatMap toBytes).length = extent pages := by
  induction pages with
  | nil => rfl
  | cons page pages ih => rw [List.flatMap_cons, List.length_append, length_toBytes, ih, extent]

theorem offsets_concat (pages : List StoredPage) (page : StoredPage) :
    offsets (pages ++ [page]) = offsets pages ++ [extent pages] := by
  have hearlier : ∀ n ∈ List.range pages.length, extent ((pages ++ [page]).take n) = extent (pages.take n) := by
    intro n hn
    rw [List.take_append_of_le_length (List.mem_range.mp hn).le]
  rw [offsets, List.length_append, List.length_singleton, List.range_succ, List.map_append, List.map_singleton,
    List.take_left, List.map_congr_left hearlier, offsets]

theorem offsets_le {pages : List StoredPage} {n : Nat} (h : n ∈ offsets pages) : n ≤ extent pages := by
  obtain ⟨m, -, rfl⟩ := List.mem_map.mp h
  rw [← length_flatMap_toBytes, ← length_flatMap_toBytes pages, ← List.take_append_drop m pages, List.flatMap_append,
    List.length_append, List.take_append_drop]
  exact Nat.le_add_right _ _

theorem offsets_take (pages : List StoredPage) (n : Nat) : offsets (pages.take n) = (offsets pages).take n := by
  rw [offsets, offsets, ← List.map_take, List.take_range, List.length_take]
  refine List.map_congr_left fun m hm => ?_
  rw [List.take_take, Nat.min_eq_left (Nat.lt_min.mp (List.mem_range.mp hm)).1.le]

/-- Each page lies where its offset says, whatever is written behind them all. -/
theorem toBytes_prefix_drop {pages : List StoredPage} {page : StoredPage} {n : Nat}
    (h : (page, n) ∈ pages.zip (offsets pages)) (rest : List UInt8) :
    page.toBytes <+: (pages.flatMap toBytes ++ rest).drop n := by
  obtain ⟨i, hi, heq⟩ := List.mem_iff_getElem.mp h
  rw [List.length_zip, Nat.lt_min] at hi
  rw [List.getElem_zip, Prod.mk.injEq] at heq
  obtain ⟨rfl, hn⟩ := heq
  obtain rfl : extent (pages.take i) = n := by
    rw [← hn]
    simp only [offsets, List.getElem_map, List.getElem_range]
  -- what is dropped are the pages before this one
  have hcut : pages = pages.take i ++ pages[i] :: pages.drop (i + 1) := by
    rw [← List.drop_eq_getElem_cons hi.1, List.take_append_drop]
  have hbytes : pages.flatMap toBytes ++ rest = (pages.take i).flatMap toBytes
      ++ (pages[i].toBytes ++ ((pages.drop (i + 1)).flatMap toBytes ++ rest)) := by
    conv_lhs => rw [hcut]
    rw [List.flatMap_append, List.flatMap_cons, List.append_assoc, List.append_assoc]
  rw [hbytes, List.drop_left' (length_flatMap_toBytes _)]
  exact List.prefix_append _ _

end StoredPage

theorem Image.asRead_eq_restored (page : StoredPage) : asRead page = page.restored := by
  have hlink : PageRef.ofLink (PageRef.toLink page.right) = page.right.filter (· ≠ .undefined) := by
    cases page.right with
    | none => exact PageRef.ofLink_toLink_none
    | some r =>
      by_cases hr : r = .undefined
      · rw [hr]
        rfl
      · rw [PageRef.ofLink_toLink_of_ne hr, Option.filter_some, if_pos (decide_eq_true hr)]
  rw [asRead, StoredPage.restored, hlink]

namespace ImageWriter

variable {bytes : List UInt8} {writer : ImageWriter}

/-- Pages are appended one behind the other, each at the end of what is there by then. -/
theorem Wrote.mapM_append_runs (h : Wrote [] writer) (pages : List StoredPage) : ∃ writer',
    Action.Runs (pages.mapM append) writer ((StoredPage.offsets pages).map .ofNat) writer'
      ∧ Wrote (pages.flatMap StoredPage.toBytes) writer' := by
  -- from the back, since the last page lies behind all the others
  induction pages using List.reverseRecOn with
  | nil => exact ⟨writer, Action.runs_pure _ _, h⟩
  | append_singleton pages page ih =>
    obtain ⟨writer₁, hruns, hw₁⟩ := ih
    obtain ⟨writer₂, happend, hw₂⟩ := hw₁.append_runs page
    rw [StoredPage.length_flatMap_toBytes] at happend
    refine ⟨writer₂, ?_, ?_⟩
    · rw [List.mapM_append, StoredPage.offsets_concat, List.map_append, List.map_singleton]
      refine hruns.bind (Action.Runs.bind ?_ (Action.runs_pure _ _))
      rw [List.mapM_cons, List.mapM_nil]
      exact happend.bind ((Action.runs_pure _ _).bind (Action.runs_pure _ _))
    · rwa [List.flatMap_append, List.flatMap_singleton]

/-- Whatever pages a writer is given: it names each by the number of bytes before it, its position is the number of
bytes it has written, after every page and at the end, and the sealed image gives back every page under its name, the
descriptor and the filter. -/
theorem reads_back (pages : List StoredPage) (d : Descriptor) (filter : Option BloomFilter)
    (hpayload : ∀ page ∈ pages, page.payload.length < 2 ^ 32) (hflag : d.hasFilter = filter.isSome)
    (hsize : (Image.ofSealed (pages.flatMap StoredPage.toBytes) d filter).bytes.length < 2 ^ 64) :
    ∃ refs : List PageRef, refs.map (·.id.toNat) = StoredPage.offsets pages
      ∧ (∀ n, ∃ writer, Action.Runs ((pages.take n).mapM append) (ofSink .unlimited) (refs.take n) writer
        ∧ writer.position = writer.sink.written.length)
      ∧ ∃ writer closed ref, Action.Runs (pages.mapM append) (ofSink .unlimited) refs writer
        ∧ Action.Runs (commit d filter) writer ref closed ∧ ref.id.toNat = StoredPage.extent pages
        ∧ closed.position = closed.sink.written.length
        ∧ List.Forall₂ (fun page ref => (Image.mk closed.sink.written).page ref.id = .ok page.restored) pages refs
        ∧ (Image.mk closed.sink.written).descriptor = .ok (d, filter) := by
  have hpages : StoredPage.extent pages < 2 ^ 64 := by
    rw [Image.length_ofSealed, StoredPage.length_flatMap_toBytes] at hsize
    omega
  -- an image that is not too long has room for all names
  have hid : ∀ n ≤ StoredPage.extent pages, (PageRef.ofNat n).id.toNat = n := fun n hn =>
    UInt64.toNat_ofNat_of_lt' (lt_of_le_of_lt hn hpages)
  obtain ⟨writer, hruns, hw⟩ := wrote_nil.mapM_append_runs pages
  obtain ⟨closed, hcommit, hclosed⟩ := hw.commit_runs d filter
  have hreads : ∀ page n, (page, n) ∈ pages.zip (StoredPage.offsets pages) →
      (Image.ofSealed (pages.flatMap StoredPage.toBytes) d filter).page (PageRef.ofNat n).id = .ok page.restored := by
    intro page n hmem
    obtain ⟨hpage, hn⟩ := List.of_mem_zip hmem
    rw [← Image.asRead_eq_restored]
    refine Image.page_eq hsize (hpayload page hpage) ?_
    rw [hid n (StoredPage.offsets_le hn)]
    exact StoredPage.toBytes_prefix_drop hmem _
  refine ⟨(StoredPage.offsets pages).map .ofNat, ?_, ?_, writer, closed, _, hruns, hcommit, ?_, ?_, ?_, ?_⟩
  · rw [List.map_map]
    exact (List.map_congr_left fun n hn => hid n (StoredPage.offsets_le hn)).trans (List.map_id _)
  · intro n
    obtain ⟨writer', hruns', hw'⟩ := wrote_nil.mapM_append_runs (pages.take n)
    rw [StoredPage.offsets_take, List.map_take] at hruns'
    exact ⟨writer', hruns', by rw [hw'.position, hw'.written]⟩
  · rw [StoredPage.length_flatMap_toBytes]
    exact hid _ le_rfl
  · rw [hclosed.position, hclosed.written]
  · rw [hclosed.written, List.forall₂_map_right_iff, List.forall₂_iff_zip]
    refine ⟨?_, fun hmem => hreads _ _ hmem⟩
    rw [StoredPage.offsets, List.length_map, List.length_range]
  · rw [hclosed.written]
    exact Image.descriptor_eq hsize hflag

/-- What seals the image below. -/
def plain : Descriptor :=
  { pageSize := 4, hasFilter := true, root := ⟨44⟩, rightmost := ⟨44⟩, items := 0, measures := 0 }

/-- Pages that look like the end of an image: another descriptor, the offset of one, and links to no page and to
nowhere. -/
def misleading : List StoredPage :=
  [{ plain with root := ⟨7⟩ }.toStored, ⟨.leaf, Bytes.ofWord64 0, some .undefined⟩, ⟨.leaf, [], some ⟨7⟩⟩]

/-- They are read back like any others. -/
theorem reads_back_misleading : (∀ page ∈ misleading, page.payload.length < 2 ^ 32)
    ∧ plain.hasFilter = (some ((BloomFilter.empty 64 1).insert (5 : UInt64))).isSome
    ∧ ∃ (refs : List PageRef) (writer closed : ImageWriter) (ref : PageRef),
      refs.map (·.id.toNat) = [0, 44, 69] ∧ ref.id.toNat = 86
        ∧ Action.Runs (misleading.mapM append) (ofSink .unlimited) refs writer
        ∧ Action.Runs (commit plain (some ((BloomFilter.empty 64 1).insert (5 : UInt64)))) writer ref closed
        ∧ List.Forall₂ (fun page ref => (Image.mk closed.sink.written).page ref.id = .ok page.restored) misleading refs
        ∧ (Image.mk closed.sink.written).descriptor
          = .ok (plain, some ((BloomFilter.empty 64 1).insert (5 : UInt64))) := by
  have hpayload : ∀ page ∈ misleading, page.payload.length < 2 ^ 32 := by decide
  have hsize : (Image.ofSealed (misleading.flatMap StoredPage.toBytes) plain
      (some ((BloomFilter.empty 64 1).insert (5 : UInt64)))).bytes.length < 2 ^ 64 := by decide +kernel
  obtain ⟨refs, hrefs, -, writer, closed, ref, hruns, hcommit, href, -, hread, hopened⟩ :=
    reads_back misleading plain _ hpayload rfl hsize
  exact ⟨hpayload, rfl, refs, writer, closed, ref, hrefs, href, hruns, hcommit, hread, hopened⟩

end ImageWriter

end PagedIndex
