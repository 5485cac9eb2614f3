import PagedIndex.Proofs.Accuracy
import PagedIndex.Proofs.Agreement
import PagedIndex.Proofs.Image.Reopened
import PagedIndex.Proofs.Refinement

/-!
# An index is written and opened again

What is written of an index is an image from which the same index is opened: the pages have their offsets as names
then, and nothing else differs (`Index.reopens`). Filter and cache have no part in what is answered.
-/

namespace PagedIndex

variable {K I : Type} [IndexKey K] [Codec I]

/-! ## Filters -/

omit [Codec I] in
/-- A filter turns no key away that is there. -/
theorem Tree.all_filter [LawfulKey K] {tree : Tree K I} {t : Subtree K I} {key : K}
    (h : itemAt key t.entries ≠ none) : (tree.filter t).all (·.contains key) = true := by
  unfold Tree.filter filtered
  cases tree.emptyFilter? with
  | none => rfl
  | some filter =>
    obtain ⟨e, he, heq⟩ : ∃ e ∈ t.entries, compare e.1 key = .eq := by
      by_contra habsent
      exact h (itemAt_eq_none.mpr fun e he heq => habsent ⟨e, he, heq⟩)
    rw [Option.map_some, Option.all_some, ← BloomFilter.contains_congr (LawfulKey.hashInput_congr _ _ heq)]
    exact BloomFilter.contains_foldl_insert (.inl (List.mem_map_of_mem he))

/-! ## Copies -/

/-- The pages of a tree can be given the offsets as names at which they will be stored. -/
theorem Tree.Matches.exists_placed {tree : Tree K I} {view : PageRef → Option (Page K I)} {t : Subtree K I}
    (h : tree.Matches view t) (start : Nat) : ∃ f, Subtree.Placed f start t.stowed :=
  Subtree.exists_placed ((t.stowed_perm.map Subtree.ref).nodup_iff.mpr h.sound.nodup) start

/-- Wherever the pages of a tree are, it can be written, its pages having their offsets as names. -/
theorem Pager.Shows.write_runs [Std.TransOrd K] {pager : Pager K I} {view : PageRef → Option (Page K I)}
    {tree : Tree K I} {t : Subtree K I} (h : pager.Shows view) (hsize : 4 ≤ tree.config.pageSize)
    (ht : tree.Matches view t) {f : PageRef → PageRef} {bytes : List UInt8} {writer : ImageWriter}
    (hplaced : Subtree.Placed f bytes.length t.stowed) (hw : writer.Wrote bytes) : ∃ pager' writer',
      Action.Runs tree.write (pager, writer) (tree.descriptor f (tree.filter t)) (pager', writer')
        ∧ ImageWriter.Wrote (tree.image f bytes t).bytes writer' := by
  obtain ⟨srv, hands, hserves⟩ := h.exists_service
  obtain ⟨d, hcarries⟩ := hands.carries hsize ht
  exact Tree.write_runs hcarries (hands.refs_le ht) hands.wide hplaced hw hserves

namespace Index

/-- The index that was opened over the image is the index `s` with the tree `t`: its pages have the names that `f` gives
them, and whatever its pager has read so far, it answers the same. -/
structure CopiedTo (s : Index K I) (t : Subtree K I) (f : PageRef → PageRef) (image : Image) (copy : Index K I) :
    Prop where
  len : copy.tree.len = s.tree.len
  pageSize : copy.tree.config.pageSize = s.tree.config.pageSize
  hasFilter : copy.tree.config.hasFilter = s.tree.config.hasFilter
  /-- The name of a page is the offset at which it lies. -/
  offsets : ∀ u ∈ t.subtrees, ∃ n, f u.ref = .ofNat n ∧ (u.rename f).stored.toBytes <+: image.bytes.drop n
  /-- Shape, entries, separators, values and links are the same, and so is the last leaf. -/
  pages : copy.tree.Matches image.page? (t.rename f)
  opened : copy.pager.Opened image (s.tree.filter t)
  agrees : ∀ pager : Pager K I, pager.Opened image (s.tree.filter t) → s.tree.Agrees f s.pager copy.tree pager
  verified : ∀ pager : Pager K I, pager.Opened image (s.tree.filter t) → copy.tree.verify.answer pager = .ok ()
  /-- The filter turns no key away that is there. -/
  admits : ∀ pager : Pager K I, pager.Opened image (s.tree.filter t) →
    ∀ key, (s.tree.contains key).answer s.pager = .ok true → (Pager.mightContain key).answer pager = .ok true

section

variable [Std.TransOrd K] {s : Index K I} {d : Nat} {t : Subtree K I}

/-- Pages in memory carry the tree that an index holds. -/
theorem Holds.exists_carries (h : Holds s d t) (hg : s.pager.gate = .wide) (hn : s.pager.next.toNat ≤ 2 ^ 64 - 2) :
    ∃ srv : Service K I, srv.Hands s.pager.page? ∧ srv.Serves s.pager ∧ srv.Carries s.tree d t
      ∧ ∀ key, srv.Reads (Pager.mightContain key) fun may => may = false → itemAt key t.entries = none := by
  obtain ⟨store, hs⟩ := h.ready.started
  have hshown := h.ready.shown?_eq hn
  have hands := Pager.hands_shownService hs (by rw [hg]; rfl)
  have ht := matches_iff.mp ((matches_iff_holds h.ready h.pageSize).mpr ⟨d, h⟩)
  rw [← hshown] at ht
  obtain ⟨d', hcarries⟩ := hands.carries h.pageSize ht
  obtain rfl := hcarries.whole.regular.depth_unique h.whole.regular
  rw [hshown] at hands
  exact ⟨_, hands, ⟨0, .refl hs.backing⟩, hcarries, fun key => h.reads_mightContain hn key⟩

theorem Holds.answers (h : Holds s d t) (hg : s.pager.gate = .wide) (hn : s.pager.next.toNat ≤ 2 ^ 64 - 2) :
    s.tree.Answers s.pager d t := by
  obtain ⟨srv, hands, hserves, hcarries, hmight⟩ := h.exists_carries hg hn
  exact Tree.answers hcarries hands.wide hserves hmight

/-- The tree that an index holds can be written, its pages having their offsets as names. -/
theorem Holds.write_runs (h : Holds s d t) (hg : s.pager.gate = .wide) (hn : s.pager.next.toNat ≤ 2 ^ 64 - 2)
    {bytes : List UInt8} {writer : ImageWriter} (hw : writer.Wrote bytes) : ∃ f descriptor pager writer',
      Subtree.Placed f bytes.length t.stowed
        ∧ Action.Runs s.tree.write (s.pager, writer) descriptor (pager, writer')
        ∧ ImageWriter.Wrote (s.tree.image f bytes t).bytes writer' := by
  have ht := matches_iff.mp ((matches_iff_holds h.ready h.pageSize).mpr ⟨d, h⟩)
  obtain ⟨f, hplaced⟩ := ht.exists_placed bytes.length
  obtain ⟨pager, writer', hrun, hw'⟩ := (h.ready.shows hn (by rw [hg]; rfl)).write_runs h.pageSize ht hplaced hw
  exact ⟨f, _, pager, writer', hplaced, hrun, hw'⟩

end

variable {s : Index K I} {n : Nat} [LawfulKey K] [LawfulCodec I]

/-- What was written of an index is opened as the same index. -/
theorem Holds.copied {d : Nat} {t : Subtree K I} (h : Holds s d t) (hg : s.pager.gate = .wide)
    (hn : s.pager.next.toNat ≤ 2 ^ 64 - 2) (hvalid : s.tree.config.validate = .ok ()) (hm : t.Measured s.tree.measures)
    (hcount : s.tree.measures.length ≤ 65535) (hpayload : ∀ u ∈ t.subtrees, u.stored.payload.length < 2 ^ 32)
    {f : PageRef → PageRef} {bytes : List UInt8} (hplaced : Subtree.Placed f bytes.length t.stowed)
    (hsize : (s.tree.image f bytes t).bytes.length < 2 ^ 64 - 2) {config : Config}
    (hconfig : config.validate = .ok ()) (capacity : Nat) : ∃ copy : Index K I,
      Action.Runs (Tree.openStored config s.tree.measures s.tree.keyOf)
        (Pager.ofImage (s.tree.image f bytes t) capacity) copy.tree copy.pager
      ∧ s.CopiedTo t f (s.tree.image f bytes t) copy := by
  have ht := matches_iff.mp ((matches_iff_holds h.ready h.pageSize).mpr ⟨d, h⟩)
  have ht' := ht.written hvalid hm hcount hpayload hplaced hsize config
  have hrate := (Config.of_validate hconfig).2.2
  obtain ⟨pager, hopen, hopened⟩ := Tree.reopen_runs ht hvalid hcount hsize hrate capacity
  have hands := Pager.hands_openedService (K := K) (I := I) (s.tree.image f bytes t) (s.tree.filter t)
  have hpageSize : 4 ≤ (s.tree.rename f config).config.pageSize := h.pageSize
  obtain ⟨d', hcarries⟩ := hands.carries hpageSize ht'
  obtain rfl := hcarries.whole.regular.depth_unique h.whole.regular.rename
  have hadmits : ∀ key, itemAt key t.entries ≠ none → (s.tree.filter t).all (·.contains key) = true :=
    fun _ hkey => Tree.all_filter hkey
  have hmight := Pager.reads_mightContain_opened (K := K) (I := I) (s.tree.image f bytes t) (s.tree.filter t)
  refine ⟨⟨s.tree.rename f config, pager⟩, hopen, rfl, rfl, rfl, fun u hu => ?_, ht', hopened, fun q hq => ?_,
    fun q hq => ?_, fun q hq key hkey => ?_⟩
  · obtain ⟨n, hname, -, hlies⟩ := hplaced.exists_lies _ (t.stowed_perm.mem_iff.mpr hu)
    exact ⟨n, hname, hlies⟩
  · refine (h.answers hg hn).agrees (Tree.answers hcarries hands.wide hq fun key => ?_) rfl
    refine (hmight key).mono fun may hmay hnot => ?_
    by_contra hkey
    rw [Subtree.entries_rename] at hkey
    rw [hmay, hadmits key hkey] at hnot
    exact absurd hnot (by simp)
  · obtain ⟨_, _, hrun, -⟩ := (Tree.reads_verify hcarries ht' hm.rename hpageSize).runs hands.wide hq
    exact hrun.answer_eq
  · obtain ⟨_, _, hrun, -, rfl⟩ := (hmight key).runs hands.wide hq
    rw [hrun.answer_eq, hadmits key]
    rw [(h.answers hg hn).contains] at hkey
    exact Option.isSome_iff_ne_none.mp (Except.ok.inj hkey)

/-- Whatever was done to an index, it can be written behind whatever was written before, and what was written is opened
as the same index, with any configuration and a cache of any size. -/
theorem reopens (h : Start s n) (hm : s.Accurate) (ops : List (Op K I)) (hpages : n + pagesMade ops s < 2 ^ 64 - 2)
    (hcount : s.tree.measures.length ≤ 65535) {bytes : List UInt8} {writer : ImageWriter} (hw : writer.Wrote bytes) :
    ∃ t f d pager writer', (after ops s).Matches t
      ∧ Action.Runs (after ops s).tree.write ((after ops s).pager, writer) d (pager, writer')
      ∧ ((∀ u ∈ t.subtrees, u.stored.payload.length < 2 ^ 32) → writer'.sink.written.length < 2 ^ 64 - 2 →
        ∀ config : Config, config.validate = .ok () → ∀ capacity, ∃ copy : Index K I,
          Action.Runs (Tree.openStored config s.tree.measures s.tree.keyOf)
            (Pager.ofImage ⟨writer'.sink.written⟩ capacity) copy.tree copy.pager
          ∧ (after ops s).CopiedTo t f ⟨writer'.sink.written⟩ copy) := by
  obtain ⟨hg, hnext, _, _, hholds⟩ := h.holds (by omega)
  obtain ⟨_, t, hT, hsame, hlast, hmeas⟩ := hholds.run hg ops (by omega)
  have hmeasured := hmeas ((accurate_iff_measured hholds.root.symm hholds.stored).mp hm)
  have hmatches := (matches_iff_holds hT.ready hT.pageSize).mpr ⟨_, hT⟩
  have hvalid : (after ops s).tree.config.validate = .ok () := by
    rw [hsame.config]
    exact h.valid
  rw [← hsame.measures] at hmeasured hcount ⊢
  rw [← hsame.keyOf]
  obtain ⟨hready, hn⟩ : (after ops s).pager.gate = .wide ∧ (after ops s).pager.next.toNat ≤ 2 ^ 64 - 2 :=
    ⟨hsame.gate.trans hg, by omega⟩
  obtain ⟨f, descriptor, pager, writer', hplaced, hrun, hw'⟩ := hT.write_runs hready hn hw
  refine ⟨t, f, descriptor, pager, writer', hmatches, hrun, fun hpayload hsize config hconfig capacity => ?_⟩
  rw [hw'.written] at hsize ⊢
  exact hT.copied hready hn hvalid hmeasured hcount hpayload hplaced hsize hconfig capacity

/-- The two leaves after one more entry. -/
def grownTwoLeaves : Subtree UInt64 UInt64 :=
  .inner ⟨2⟩ [5, 15, 1, 5] [3]
    [.leaf ⟨0⟩ [2, 3, 1, 2] ⟨[(1, 1), (2, 2)], some ⟨1⟩⟩, .leaf ⟨1⟩ [3, 12, 3, 5] ⟨[(3, 3), (4, 4), (5, 5)], none⟩]

/-- The pages of the index with one more entry spell out these leaves and nothing else. -/
theorem eq_grownTwoLeaves {t : Subtree UInt64 UInt64} (h : (after [.add 5] overTwoLeaves).Matches t) :
    t = grownTwoLeaves := by
  have hstored : grownTwoLeaves.StoredIn (after [.add 5] overTwoLeaves).pager.page? := by
    simp only [grownTwoLeaves, Subtree.storedIn_inner, List.forall_mem_cons, Subtree.storedIn_leaf]
    exact ⟨by decide +kernel, by decide +kernel, by decide +kernel, fun _ h => absurd h List.not_mem_nil⟩
  have hroot : grownTwoLeaves.ref = (after [.add 5] overTwoLeaves).tree.root := by decide +kernel
  exact h.stored.unique hstored (h.root.trans hroot.symm)

theorem payload_grownTwoLeaves : ∀ u ∈ grownTwoLeaves.subtrees, u.stored.payload.length < 2 ^ 32 := by
  simp only [grownTwoLeaves, Subtree.subtrees_inner, Subtree.subtrees_leaf, List.flatMap_cons, List.flatMap_nil,
    List.singleton_append, List.forall_mem_cons]
  exact ⟨by decide, by decide, by decide, fun _ h => absurd h List.not_mem_nil⟩

/-- Two leaves, one of which got another entry, are written behind seven bytes and opened without a cache. -/
theorem reopens_twoLeaves : Start overTwoLeaves 3 ∧ overTwoLeaves.Accurate
    ∧ 3 + pagesMade [.add 5] overTwoLeaves < 2 ^ 64 - 2
    ∧ ImageWriter.Wrote (List.replicate 7 0) ⟨⟨List.replicate 7 0, none⟩, 7, 0⟩
    ∧ ∃ f descriptor pager writer' copy,
      Action.Runs (after [.add 5] overTwoLeaves).tree.write
        ((after [.add 5] overTwoLeaves).pager, ⟨⟨List.replicate 7 0, none⟩, 7, 0⟩) descriptor (pager, writer')
      ∧ Action.Runs (Tree.openStored {} ofNumbers id) (Pager.ofImage ⟨writer'.sink.written⟩ 0) copy.tree copy.pager
      ∧ (after [.add 5] overTwoLeaves).CopiedTo grownTwoLeaves f ⟨writer'.sink.written⟩ copy := by
  have hpages : 3 + pagesMade [.add 5] overTwoLeaves < 2 ^ 64 - 2 := by decide +kernel
  have hwriter : ImageWriter.Wrote (List.replicate 7 0) ⟨⟨List.replicate 7 0, none⟩, 7, 0⟩ := ⟨rfl, rfl, rfl, rfl⟩
  have hsize : (Action.after (after [.add 5] overTwoLeaves).tree.write ((after [.add 5] overTwoLeaves).pager,
      ⟨⟨List.replicate 7 0, none⟩, 7, 0⟩)).2.sink.written.length < 2 ^ 64 - 2 := by decide +kernel
  obtain ⟨t, f, descriptor, pager, writer', hmatches, hrun, hopen⟩ :=
    reopens start_overTwoLeaves accurate_overTwoLeaves [.add 5] hpages (by decide) hwriter
  obtain rfl := eq_grownTwoLeaves hmatches
  rw [hrun.after_eq] at hsize
  obtain ⟨copy, hopened, hcopied⟩ := hopen payload_grownTwoLeaves hsize {} rfl 0
  exact ⟨start_overTwoLeaves, accurate_overTwoLeaves, hpages, hwriter, f, descriptor, pager, writer', copy, hrun,
    hopened, hcopied⟩

end Index

end PagedIndex
