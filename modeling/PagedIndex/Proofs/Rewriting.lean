import PagedIndex.Proofs.Reopening

/-!
# An image is written again as it was

What is written of an index that was opened over an image is that image (`Index.rewrites`). Of the names of its pages
nothing is written but the offsets that the pages get, and the order in which they are written has nothing to do with
names: under other names a tree has the same image (`Tree.image_rename`).
-/

namespace PagedIndex

namespace Tree

variable {K I : Type} [IndexKey K] {tree : Tree K I} {t : Subtree K I} {f g : PageRef → PageRef} {config : Config}

/-- The rate is all that the filter takes from the configuration that a tree is opened with. -/
theorem filter_rename (hrate : config.filterRate = tree.config.filterRate) :
    (tree.rename f config).filter (t.rename f) = tree.filter t := by
  have hempty : (tree.rename f config).emptyFilter? = tree.emptyFilter? := by
    unfold emptyFilter? Tree.rename
    dsimp only
    rw [hrate]
  rw [filter, hempty, Subtree.entries_rename, filter]

omit [IndexKey K] in
theorem descriptor_rename (filter : Option BloomFilter) :
    (tree.rename f config).descriptor g filter = tree.descriptor (g ∘ f) filter := rfl

/-- A tree under other names has the image that it had, provided that its pages get the same offsets. -/
theorem image_rename [Codec I] (hrate : config.filterRate = tree.config.filterRate) (bytes : List UInt8) :
    (tree.rename f config).image g bytes (t.rename f) = tree.image (g ∘ f) bytes t := by
  rw [image, filter_rename hrate, descriptor_rename, Subtree.stowed_rename, Subtree.laid_rename, image]

/-- A tree that was opened over its own image is written as that image, whatever was read of it before. -/
theorem Matches.rewrite_runs [Codec I] [LawfulKey K] [LawfulCodec I] {view : PageRef → Option (Page K I)}
    (ht : tree.Matches view t) (hvalid : tree.config.validate = .ok ()) (hm : t.Measured tree.measures)
    (hcount : tree.measures.length ≤ 65535) (hpayload : ∀ u ∈ t.subtrees, u.stored.payload.length < 2 ^ 32)
    {bytes : List UInt8} (hplaced : Subtree.Placed f bytes.length t.stowed)
    (hsize : (tree.image f bytes t).bytes.length < 2 ^ 64 - 2) (hrate : config.filterRate = tree.config.filterRate)
    {pager : Pager K I} (hopened : pager.Opened (tree.image f bytes t) (tree.filter t)) {writer : ImageWriter}
    (hw : writer.Wrote bytes) : ∃ pager' writer',
      Action.Runs (tree.rename f config).write (pager, writer) (tree.descriptor f (tree.filter t)) (pager', writer')
        ∧ ImageWriter.Wrote (tree.image f bytes t).bytes writer' := by
  -- the pages are named by the offsets that they get again
  have hplaced' : Subtree.Placed id bytes.length (t.rename f).stowed := by
    rw [Subtree.stowed_rename, Subtree.placed_rename]
    exact hplaced
  have hpageSize : 4 ≤ (tree.rename f config).config.pageSize := (Config.of_validate hvalid).1
  have ht' := ht.written hvalid hm hcount hpayload hplaced hsize config
  obtain ⟨pager', writer', hrun, hw'⟩ := (Pager.Shows.imaged hopened).write_runs hpageSize ht' hplaced' hw
  rw [filter_rename hrate, descriptor_rename] at hrun
  rw [image_rename hrate] at hw'
  exact ⟨pager', writer', hrun, hw'⟩

end Tree

namespace Index

variable {K I : Type} [IndexKey K] [Codec I] [LawfulKey K] [LawfulCodec I] {s : Index K I} {n : Nat}

/-- Whatever was done to an index, it can be written; what was written is opened with a cache of any size; and what is
written of the copy by the same writer is the same to the byte. -/
theorem rewrites (h : Start s n) (hm : s.Accurate) (ops : List (Op K I)) (hpages : n + pagesMade ops s < 2 ^ 64 - 2)
    (hcount : s.tree.measures.length ≤ 65535) {bytes : List UInt8} {writer : ImageWriter} (hw : writer.Wrote bytes) :
    ∃ t d pager writer', (after ops s).Matches t
      ∧ Action.Runs (after ops s).tree.write ((after ops s).pager, writer) d (pager, writer')
      ∧ ((∀ u ∈ t.subtrees, u.stored.payload.length < 2 ^ 32) → writer'.sink.written.length < 2 ^ 64 - 2 →
        ∀ config : Config, config.filterRate = s.tree.config.filterRate → ∀ capacity, ∃ copy : Index K I,
          Action.Runs (Tree.openStored config s.tree.measures s.tree.keyOf)
            (Pager.ofImage ⟨writer'.sink.written⟩ capacity) copy.tree copy.pager
          ∧ ∃ pager', Action.Runs copy.tree.write (copy.pager, writer) d (pager', writer')) := by
  obtain ⟨hg, hnext, _, _, hholds⟩ := h.holds (by omega)
  obtain ⟨_, t, hT, hsame, hlast, hmeas⟩ := hholds.run hg ops (by omega)
  have hmeasured := hmeas ((accurate_iff_measured hholds.root.symm hholds.stored).mp hm)
  have hvalid : (after ops s).tree.config.validate = .ok () := by
    rw [hsame.config]
    exact h.valid
  rw [← hsame.measures] at hmeasured hcount ⊢
  rw [← hsame.keyOf, ← hsame.config]
  have hmatches := (matches_iff_holds hT.ready hT.pageSize).mpr ⟨_, hT⟩
  have hshows := hT.ready.shows (by omega) (by rw [hsame.gate, hg]; rfl)
  have ht := matches_iff.mp hmatches
  obtain ⟨f, hplaced⟩ := ht.exists_placed bytes.length
  obtain ⟨pager, writer', hrun, hw'⟩ := hshows.write_runs hT.pageSize ht hplaced hw
  refine ⟨t, _, pager, writer', hmatches, hrun, fun hpayload hsize config hrate capacity => ?_⟩
  rw [hw'.written] at hsize ⊢
  have hproper : config.filterRate.isProper = true := hrate ▸ (Config.of_validate hvalid).2.2
  obtain ⟨pager', hopen, hopened⟩ := Tree.reopen_runs ht hvalid hcount hsize hproper capacity
  obtain ⟨pager'', writer'', hrun', hw''⟩ :=
    ht.rewrite_runs hvalid hmeasured hcount hpayload hplaced hsize hrate hopened hw
  obtain rfl := hw'.unique hw''
  exact ⟨⟨(after ops s).tree.rename f config, pager'⟩, hopen, pager'', hrun'⟩

/-- Two leaves, one of which got another entry, are written, opened with a cache for a single page, and written again
as they were. -/
theorem rewrites_twoLeaves : Start overTwoLeaves 3 ∧ overTwoLeaves.Accurate
    ∧ 3 + pagesMade [.add 5] overTwoLeaves < 2 ^ 64 - 2 ∧ ImageWriter.Wrote [] (.ofSink .unlimited)
    ∧ ∃ d pager writer, ∃ copy : Index UInt64 UInt64, ∃ pager',
      Action.Runs (after [.add 5] overTwoLeaves).tree.write
        ((after [.add 5] overTwoLeaves).pager, .ofSink .unlimited) d (pager, writer)
      ∧ Action.Runs (Tree.openStored {} ofNumbers id) (Pager.ofImage ⟨writer.sink.written⟩ 1) copy.tree copy.pager
      ∧ Action.Runs copy.tree.write (copy.pager, .ofSink .unlimited) d (pager', writer) := by
  have hpages : 3 + pagesMade [.add 5] overTwoLeaves < 2 ^ 64 - 2 := by decide +kernel
  have hsize : (Action.after (after [.add 5] overTwoLeaves).tree.write ((after [.add 5] overTwoLeaves).pager,
      .ofSink .unlimited)).2.sink.written.length < 2 ^ 64 - 2 := by decide +kernel
  obtain ⟨t, d, pager, writer, hmatches, hrun, hopen⟩ :=
    rewrites start_overTwoLeaves accurate_overTwoLeaves [.add 5] hpages (by decide) ImageWriter.wrote_nil
  obtain rfl := eq_grownTwoLeaves hmatches
  rw [hrun.after_eq] at hsize
  obtain ⟨copy, hopened, pager', hrun'⟩ := hopen payload_grownTwoLeaves hsize {} rfl 1
  exact ⟨start_overTwoLeaves, accurate_overTwoLeaves, hpages, ImageWriter.wrote_nil, d, pager, writer, copy, pager',
    hrun, hopened, hrun'⟩

end Index

end PagedIndex
