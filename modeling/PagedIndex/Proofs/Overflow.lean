import PagedIndex.Proofs.Reopening

/-!
# An index is written where there is little room

Whatever number of bytes the sink takes in all: if the whole image fits, it is written as if there were no end of
room. If not, the writer stops inside the first block that does not fit (`Pager.Shows.write_bounded`). It has advanced
over whole blocks only, it names the block by the place where it stands, and the sink took the beginning of the image.
-/

namespace PagedIndex

variable {K I : Type} [IndexKey K] [Codec I] {tree : Tree K I} {t : Subtree K I} {f : PageRef → PageRef}

open Subtree

/-- Pages that have their offsets as names are reported by the place where they begin. -/
theorem Subtree.Placed.name_eq {start : Nat} {us : List (Subtree K I)} (h : Placed f start us)
    {before after : List Block} {block : Block} (hblocks : blocks f us = before ++ block :: after) :
    block.name = .ofNat (start + (Block.bytes before).length) := by
  obtain ⟨as, rest, rfl, rfl, hrest⟩ := List.map_eq_append_iff.mp hblocks
  obtain ⟨u, bs, rfl, rfl, -⟩ := List.map_eq_cons_iff.mp hrest
  have hbytes : (Block.bytes (blocks f as)).length = extent as := by
    rw [bytes_blocks, length_laid]
  exact (placed_append.mp h).2.1.trans (congrArg (fun n => PageRef.ofNat (start + n)) hbytes.symm)

/-- A block of a tree is reported by the place where it begins, and what seals the image by the descriptor's name. -/
theorem Tree.name_eq {start : Nat} (h : Placed f start t.stowed) {before after : List Block} {block : Block}
    (hblocks : tree.blocks f start t = before ++ block :: after) :
    block.name = if after = [] then .descriptor else .ofNat (start + (Block.bytes before).length) := by
  -- what seals the image is the last of its blocks
  rcases List.eq_nil_or_concat' after with rfl | ⟨front, last, rfl⟩
  · obtain ⟨-, hlast⟩ := List.append_inj' hblocks rfl
    rw [if_pos rfl, ← (List.cons.inj hlast).1]
  · rw [← List.cons_append, ← List.append_assoc] at hblocks
    obtain ⟨hpages, -⟩ := List.append_inj' hblocks rfl
    rw [if_neg (by simp)]
    exact h.name_eq hpages

variable {pager : Pager K I} {view : PageRef → Option (Page K I)}

/-- A tree is written into a sink for `n` bytes in all. If the image is no longer than that, the descriptor is the same
as without any limit and the whole image is written. If it is longer, writing fails: the writer has advanced over some
of the blocks of the tree, whose bytes are the beginning of what was taken, the next block was not taken as a whole, and
the error names the place where it begins, or the descriptor for the last one. In either case the same pages are shown
afterwards. -/
theorem Pager.Shows.write_bounded [Std.TransOrd K] (h : pager.Shows view) (hsize : 4 ≤ tree.config.pageSize)
    (ht : tree.Matches view t) : ∃ f, Placed f 0 t.stowed
      ∧ Block.bytes (tree.blocks f 0 t) = (tree.image f [] t).bytes
      ∧ (∃ pager', Action.Runs tree.write (pager, .ofSink .unlimited) (tree.descriptor f (tree.filter t))
          (pager', ⟨⟨(tree.image f [] t).bytes, none⟩, (tree.image f [] t).bytes.length, 0⟩)
        ∧ pager'.Shows view)
      ∧ ∀ n, ((tree.image f [] t).bytes.length ≤ n → ∃ pager',
          Action.Runs tree.write (pager, .ofSink (.limited n)) (tree.descriptor f (tree.filter t))
            (pager', ⟨⟨(tree.image f [] t).bytes, some (n - (tree.image f [] t).bytes.length)⟩,
              (tree.image f [] t).bytes.length, 0⟩)
          ∧ pager'.Shows view)
        ∧ (n < (tree.image f [] t).bytes.length → ∃ pager' before block after taken,
          tree.blocks f 0 t = before ++ block :: after
          ∧ Action.Fails tree.write (pager, .ofSink (.limited n))
            (.persistence (if after = [] then .descriptor else .ofNat (Block.bytes before).length) .writeRefused)
            (pager', ⟨⟨taken, some (n - taken.length)⟩, (Block.bytes before).length, 0⟩)
          ∧ Block.bytes before <+: taken ∧ taken <+: (tree.image f [] t).bytes
          ∧ taken.length ≤ n ∧ n < (Block.bytes (before ++ [block])).length
          ∧ pager'.Shows view) := by
  obtain ⟨srv, hands, hserves, hkeeps⟩ := h.exists_keeping_service
  obtain ⟨d, hcarries⟩ := hands.carries hsize ht
  obtain ⟨f, hplaced⟩ := ht.exists_placed 0
  have hbytes : Block.bytes (tree.blocks f 0 t) = (tree.image f [] t).bytes := tree.bytes_blocks f [] t
  have hputs : ∀ room, srv.Puts room 0 tree.write (tree.blocks f 0 t) (· = tree.descriptor f (tree.filter t)) :=
    fun _ => Tree.puts_write hcarries (hands.refs_le ht) hands.wide hplaced
  refine ⟨f, hplaced, hbytes, ?_, ?_⟩
  · rcases hputs none [] pager rfl (Sink.fits_nil none) hserves with
      ⟨_, pager', rfl, -, hrun, hserves'⟩ | ⟨_, _, _, hstopped, -⟩
    · rw [List.nil_append, hbytes] at hrun
      exact ⟨pager', hrun, hkeeps pager' hserves'⟩
    · exact absurd hstopped ImageWriter.not_stopped_none
  intro n
  rcases hputs (some n) [] pager rfl (Sink.fits_nil (some n)) hserves with
    ⟨_, pager', rfl, hfits, hrun, hserves'⟩ | ⟨pager', e, writer, hstopped, hfails, hserves'⟩
  · -- what was written as a whole is not longer than the room there was
    rw [List.nil_append, hbytes] at hfits hrun
    refine ⟨fun _ => ⟨pager', hrun, hkeeps pager' hserves'⟩, fun hlt => ?_⟩
    exact absurd (Sink.fits_some.mp hfits) (Nat.not_le_of_gt hlt)
  · -- what stopped the writer is a block that goes beyond it, and so the image does
    have hshort := hstopped.lt
    rw [List.nil_append, hbytes] at hshort
    refine ⟨fun hle => absurd hle (Nat.not_le_of_gt hshort), fun _ => ?_⟩
    obtain @⟨_, before, after, block, taken, hroom, hblocks, hcut⟩ := hstopped
    obtain rfl := Option.some.inj hroom
    rw [List.nil_append] at hcut hfails
    obtain ⟨hbefore, htaken⟩ := hcut.prefix
    refine ⟨pager', before, block, after, taken, hblocks, ?_, hbefore, ?_, hcut.length_le, ?_, hkeeps pager' hserves'⟩
    · -- no page has the name of the descriptor, so the last block only is reported under it
      have hname := Tree.name_eq hplaced hblocks
      rw [Nat.zero_add] at hname
      rwa [hname] at hfails
    · refine htaken.trans ?_
      rw [← hbytes, hblocks, Block.bytes_append, Block.bytes_cons, ← List.append_assoc]
      exact List.prefix_append _ _
    · have hlt := hcut.lt
      rwa [Block.bytes_append, Block.bytes_singleton]

/-- With room for thirty bytes two leaves are not written to the end, since descriptor and trailer take more. -/
theorem Index.write_thirtyBytes : overTwoLeaves.pager.Shows overTwoLeaves.pager.page?
    ∧ 4 ≤ overTwoLeaves.tree.config.pageSize
    ∧ overTwoLeaves.tree.Matches overTwoLeaves.pager.page? twoLeaves
    ∧ ∃ pager' page writer, Action.Fails overTwoLeaves.tree.write (overTwoLeaves.pager, .ofSink (.limited 30))
        (.persistence page .writeRefused) (pager', writer)
      ∧ writer.position ≤ writer.sink.written.length ∧ writer.sink.written.length ≤ 30
      ∧ pager'.Shows overTwoLeaves.pager.page? := by
  have hshows : overTwoLeaves.pager.Shows overTwoLeaves.pager.page? := ready_overTwoLeaves.shows (by decide) rfl
  have hmatches := matches_iff.mp matches_twoLeaves
  obtain ⟨f, -, -, -, hbounded⟩ := hshows.write_bounded (by decide) hmatches
  have hlong : 30 < (overTwoLeaves.tree.image f [] twoLeaves).bytes.length := by
    rw [Tree.image, Image.length_ofSealed, Header.byteSize, Descriptor.byteSize]
    omega
  obtain ⟨pager', before, block, after, taken, -, hfails, hbefore, -, htaken, -, hshows'⟩ := (hbounded 30).2 hlong
  exact ⟨hshows, by decide, hmatches, pager', _, _, hfails, hbefore.length_le, htaken, hshows'⟩

end PagedIndex
