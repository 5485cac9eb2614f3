import PagedIndex.Proofs.Image.Nodes
import PagedIndex.Proofs.Image.Written

/-!
# A written tree is read back

The pages of a written tree lie in the image at the offsets that are their names there, so the image stores the tree
under these names (`storedIn_image`), and whoever opens the image gets to know it (`Tree.openStored_runs`).
-/

namespace PagedIndex

namespace Subtree

variable {K I : Type} {f : PageRef → PageRef}

section

variable [Codec K] [Codec I]

/-- Every page lies at the offset that is its name. -/
theorem Placed.exists_lies {us : List (Subtree K I)} {front : List UInt8} (h : Placed f front.length us)
    (back : List UInt8) {u : Subtree K I} (hu : u ∈ us) : ∃ n, f u.ref = .ofNat n
      ∧ n < front.length + extent us ∧ (u.rename f).stored.toBytes <+: (front ++ laid f us ++ back).drop n := by
  induction us generalizing front with
  | nil => exact absurd hu List.not_mem_nil
  | cons v us ih =>
    rw [laid, List.flatMap_cons, ← List.append_assoc]
    obtain rfl | hu := List.mem_cons.mp hu
    · refine ⟨front.length, h.1, ?_, ?_⟩
      · rw [extent, StoredPage.byteSize, Header.byteSize]
        omega
      · rw [List.append_assoc, List.append_assoc, List.drop_left]
        exact List.prefix_append _ _
    · have hlen : (front ++ (v.rename f).stored.toBytes).length = front.length + v.stored.byteSize := by
        rw [List.length_append, StoredPage.length_toBytes, byteSize_rename]
      have hplaced : Placed f (front ++ (v.rename f).stored.toBytes).length us := hlen ▸ h.2
      obtain ⟨n, hn, hlt, hlies⟩ := ih hplaced hu
      refine ⟨n, hn, ?_, hlies⟩
      rw [hlen] at hlt
      rw [extent]
      omega

end

end Subtree

namespace Image

variable {K I : Type} [Codec K] [Codec I] [LawfulCodec K] [LawfulCodec I]

omit [Codec K] [Codec I] [LawfulCodec K] [LawfulCodec I] in
theorem toNat_ofNat {n : Nat} (h : n < 2 ^ 64 - 2) : (PageRef.ofNat n).id.toNat = n :=
  UInt64.toNat_ofNat_of_lt' (show n < 2 ^ 64 by omega)

/-- A page that lies at its name is found there. -/
theorem page?_of_lies {image : Image} {u : Subtree K I} {n : Nat} (hsize : image.bytes.length < 2 ^ 64 - 2)
    (hname : u.ref = .ofNat n) (hn : n < image.bytes.length) (hlies : u.stored.toBytes <+: image.bytes.drop n)
    (hmeasures : u.measures.length < 2 ^ 16) (hnode : u.page.node.Storable)
    (hpayload : u.stored.payload.length < 2 ^ 32)
    (hlink : ∀ r m l, u = .leaf r m l → l.right ≠ some .undefined) : image.page? u.ref = some u.page := by
  have hid : u.ref.id.toNat = n := by
    rw [hname]
    exact toNat_ofNat (by omega)
  have hread : Image.asRead u.stored = u.stored := by
    cases u with
    | leaf r m l => exact asRead_of_ne (fun _ => hlink r m l rfl) (fun h => absurd rfl h)
    | inner r m ks cs => exact asRead_of_ne (fun h => PageKind.noConfusion h) (fun _ => rfl)
  refine page?_eq_some.mpr ⟨u.ref_page, PageRef.isDefined_of_lt (by omega), u.stored, ?_, ?_⟩
  · rw [page_eq (by omega) hpayload (by rwa [hid]), hread]
  · rw [Subtree.measures_page]
    exact StoredPage.decode_ofNode hmeasures hnode hpayload

end Image

/-! ## The whole tree -/

section

variable {K I : Type} [IndexKey K] [Codec I] {tree : Tree K I} {view : PageRef → Option (Page K I)}
  {t : Subtree K I} {f : PageRef → PageRef} {bytes : List UInt8} {d : Descriptor} {filter : Option BloomFilter}

open Subtree

/-- The pages of a tree can be stored: counts and lengths fit the fields that they are stored in. -/
structure Subtree.Storable (t : Subtree K I) : Prop where
  measures : ∀ u ∈ t.subtrees, u.measures.length < 2 ^ 16
  node : ∀ u ∈ t.subtrees, u.page.node.Storable
  payload : ∀ u ∈ t.subtrees, u.stored.payload.length < 2 ^ 32

omit [IndexKey K] [Codec I] in
theorem Node.Storable.rename {u : Subtree K I} (h : u.page.node.Storable) : (u.rename f).page.node.Storable := by
  cases u with
  | leaf r m l =>
    rw [rename_leaf]
    exact h
  | inner r m ks cs =>
    rw [rename_inner]
    refine ⟨h.1, ?_⟩
    have hlen := h.2
    simp only [List.length_map] at hlen ⊢
    exact hlen

/-- In an image of a tree every page of it lies at the offset that is its name. -/
theorem Subtree.exists_lies_image {image : Image} {back : List UInt8} (hplaced : Placed f bytes.length t.stowed)
    (himage : image.bytes = bytes ++ laid f t.stowed ++ back) {u : Subtree K I} (hu : u ∈ t.subtrees) :
    ∃ n, f u.ref = .ofNat n ∧ n < image.bytes.length ∧ (u.rename f).stored.toBytes <+: image.bytes.drop n := by
  obtain ⟨n, hname, hn, hlies⟩ := hplaced.exists_lies back (t.stowed_perm.mem_iff.mpr hu)
  refine ⟨n, hname, Nat.lt_of_lt_of_le hn ?_, himage ▸ hlies⟩
  rw [himage, List.length_append, List.length_append, length_laid]
  exact Nat.le_add_right _ _

/-- An image stores a tree that was written into it, under the offsets of its pages. -/
theorem Subtree.storedIn_image [LawfulCodec K] [LawfulCodec I] {image : Image} {back : List UInt8}
    (hplaced : Placed f bytes.length t.stowed) (himage : image.bytes = bytes ++ laid f t.stowed ++ back)
    (hsize : image.bytes.length < 2 ^ 64 - 2) (hlinked : Linked none t.leaves) (ht : t.Storable) :
    (t.rename f).StoredIn image.page? := by
  -- each page of the tree under its new name is one that was laid down
  intro s hs
  rw [subtrees_rename] at hs
  obtain ⟨u, hu, rfl⟩ := List.mem_map.mp hs
  obtain ⟨n, hname, hn, hpage⟩ := exists_lies_image hplaced himage hu
  refine Image.page?_of_lies hsize (by rw [ref_rename, hname]) hn hpage ?_ (ht.node u hu).rename ?_ ?_
  · rw [measures_rename]
    exact ht.measures u hu
  · rw [length_payload_rename]
    exact ht.payload u hu
  · -- a link names another leaf, which has an offset as its name as well
    intro r m l heq hright
    cases u with
    | inner r₀ m₀ ks cs =>
      rw [rename_inner] at heq
      exact absurd heq (by simp)
    | leaf r₀ m₀ l₀ =>
      rw [rename_leaf] at heq
      obtain ⟨-, -, rfl⟩ := Subtree.leaf.inj heq
      obtain ⟨r', hr', hundefined⟩ := Option.map_eq_some_iff.mp hright
      obtain hlater | hnone := right_of_linked hlinked (mem_leaves_iff.mpr ⟨m₀, hu⟩) hr'
      · obtain ⟨⟨r', l'⟩, hleaf, rfl⟩ := List.mem_map.mp hlater
        obtain ⟨m', hu'⟩ := mem_leaves_iff.mp hleaf
        obtain ⟨n', hname', hn', -⟩ := exists_lies_image hplaced himage hu'
        have hdefined : (f r').isDefined := by
          refine PageRef.isDefined_of_lt ?_
          rw [show f r' = .ofNat n' from hname', Image.toNat_ofNat (by omega)]
          omega
        rw [hundefined] at hdefined
        exact absurd hdefined (by decide)
      · exact absurd hnone (by simp)

/-- A tree in shape can be stored, provided that its pages are not too long. -/
theorem Tree.Matches.storable (h : tree.Matches view t) (hvalid : tree.config.validate = .ok ())
    (hm : t.Measured tree.measures) (hcount : tree.measures.length ≤ 65535)
    (hpayload : ∀ u ∈ t.subtrees, u.stored.payload.length < 2 ^ 32) : t.Storable where
  measures u hu := by
    rw [hm u hu, MeasureSet.length_ofItems]
    omega
  node u hu := by
    have hsize : u.size < 2 ^ 32 :=
      Nat.lt_of_le_of_lt (h.sound.size_le u hu) (Config.of_validate hvalid).2.1
    cases u with
    | leaf r m l => exact hsize
    | inner r m ks cs =>
      refine ⟨hsize, ?_⟩
      show (cs.map ref).length = ks.length + 1
      rw [List.length_map]
      exact h.sound.children r m ks cs hu
  payload := hpayload

omit [Codec I] in
theorem Subtree.length_encode_entries_le [Codec I] {us : List (Subtree K I)}
    (htips : ∀ u ∈ us, ∃ r m l, u = .leaf r m l) :
    ((us.flatMap entries).flatMap Codec.encode).length ≤ extent us := by
  induction us with
  | nil => exact Nat.le_refl 0
  | cons u us ih =>
    obtain ⟨r, m, l, rfl⟩ := htips u List.mem_cons_self
    have hrest := ih fun v hv => htips v (List.mem_cons_of_mem _ hv)
    have hpage : (l.entries.flatMap Codec.encode).length ≤ (Subtree.leaf r m l).stored.byteSize := by
      rw [StoredPage.byteSize]
      show _ ≤ _ + (_ ++ l.entries.flatMap Codec.encode).length + _
      rw [List.length_append]
      omega
    rw [List.flatMap_cons, List.flatMap_append, List.length_append, entries_leaf, extent]
    exact Nat.add_le_add hpage hrest

/-- There is at most one entry more than there are bytes: no two of them take up no room. -/
theorem Subtree.length_entries_le [LawfulCodec K] [LawfulCodec I] [Std.TransOrd K]
    (h : Increasing (t.entries.map Prod.fst)) : t.entries.length ≤ extent t.tips + 1 := by
  have hkeys : (t.entries.map Prod.fst).Nodup := h.imp fun {a b} hlt heq => by
    rw [heq, Std.ReflOrd.compare_self] at hlt
    exact absurd hlt (by decide)
  have hbytes : ((t.tips.flatMap entries).flatMap Codec.encode).length ≤ extent t.tips :=
    length_encode_entries_le fun u hu => eq_leaf_of_mem_tips hu
  rw [entries_tips] at hbytes
  exact Nat.le_trans (length_le_of_nodup hkeys.of_map) (Nat.succ_le_succ hbytes)

end

/-! ## Opening -/

section

variable {K I : Type} [Codec K] [Codec I] {image : Image} {d : Descriptor} {filter : Option BloomFilter}

theorem Pager.start_runs (h : image.descriptor = .ok (d, filter)) (capacity : Nat) : ∃ pager : Pager K I,
    Action.Runs Pager.start (Pager.ofImage image capacity) (some d) pager ∧ pager.Opened image filter := by
  let store : Imaged K I := { (.ofImage image capacity : Imaged K I) with filter, life := .ready }
  have hstart : Action.Runs Imaged.start (.ofImage image capacity) d store := by
    unfold Imaged.start
    refine (Action.runs_get _).bind ?_
    refine (Action.runs_ofExcept (a := Lifecycle.ready) rfl _).bind ?_
    have hsource : Action.Runs Imaged.source (.ofImage image capacity : Imaged K I) image
        (.ofImage image capacity) := rfl
    refine hsource.bind ((Imaged.runs_reading h _ _).bind ?_)
    exact (Action.runs_modify _ _).bind (Action.runs_pure _ _)
  have hfaithful : store.Faithful image filter := ⟨rfl, rfl, rfl, fun ref page hkept => by
    rw [show store.cache.entries.get? ref = none from rfl] at hkept
    exact absurd hkept (by simp)⟩
  refine ⟨{ (.ofImage image capacity : Pager K I) with backing := .imaged store }, ?_, rfl, store, rfl, hfaithful⟩
  unfold Pager.start
  refine (Action.runs_get _).bind ?_
  exact serve_imaged_runs rfl (hstart.bind (Action.runs_pure (some d) store))

/-- Whatever the size of the cache, a tree is opened for a valid configuration. -/
theorem Tree.openStored_runs (h : image.descriptor = .ok (d, filter)) {measures : MeasureSet I} {config : Config}
    (hcount : d.measures.toNat = measures.length)
    (hvalid : ({ config with pageSize := d.pageSize.toNat, hasFilter := d.hasFilter } : Config).validate = .ok ())
    (keyOf : I → K) (capacity : Nat) : ∃ pager : Pager K I,
      Action.Runs (Tree.openStored config measures keyOf) (Pager.ofImage image capacity)
        { config := { config with pageSize := d.pageSize.toNat, hasFilter := d.hasFilter }
          measures, keyOf
          root := d.root
          rightmost := d.rightmost
          len := d.items.toNat } pager
        ∧ pager.Opened image filter := by
  obtain ⟨pager, hstart, hopened⟩ := Pager.start_runs (K := K) (I := I) h capacity
  refine ⟨pager, ?_, hopened⟩
  unfold Tree.openStored
  refine hstart.bind ?_
  dsimp only
  rw [if_neg (fun hne => hne hcount)]
  exact (requireValid_runs hvalid pager).bind (Action.runs_pure _ _)

/-- A tree is opened with no other number of measures than the descriptor has. -/
theorem Tree.openStored_fails (h : image.descriptor = .ok (d, filter)) {measures : MeasureSet I}
    (hcount : d.measures.toNat ≠ measures.length) (config : Config) (keyOf : I → K) (capacity : Nat) :
    ∃ pager : Pager K I, Action.Fails (Tree.openStored config measures keyOf) (Pager.ofImage image capacity)
      (.invalidConfig (.measureCount d.measures.toNat measures.length)) pager := by
  obtain ⟨pager, hstart, -⟩ := Pager.start_runs (K := K) (I := I) h capacity
  refine ⟨pager, ?_⟩
  unfold Tree.openStored
  refine hstart.fails ?_
  dsimp only
  rw [if_pos hcount]
  exact (Action.fails_fail _ _).bind _

end

/-- The tree under other names, opened with another configuration: the size of its pages and the filter stay as they
were stored. -/
def Tree.rename {K I : Type} (f : PageRef → PageRef) (config : Config) (tree : Tree K I) : Tree K I :=
  { tree with
    config := { config with pageSize := tree.config.pageSize, hasFilter := tree.config.hasFilter }
    root := f tree.root
    rightmost := f tree.rightmost }

section

variable {K I : Type} [IndexKey K] [Codec I] [Std.TransOrd K] {tree : Tree K I} {view : PageRef → Option (Page K I)}
  {t : Subtree K I} {f : PageRef → PageRef} {config : Config}

open Subtree

omit [Codec I] in
/-- A tree under other names is as sound as it was, and knows itself. -/
theorem Tree.Matches.rename (h : tree.Matches view t) (hsize : 4 ≤ tree.config.pageSize)
    {view' : PageRef → Option (Page K I)} (hst : (t.rename f).StoredIn view') (config : Config) :
    (tree.rename f config).Matches view' (t.rename f) := by
  have hp : 2 ≤ tree.config.pageSize := by omega
  obtain ⟨⟨d, hwhole⟩, hasc, -, hlinked⟩ := (sound_iff hp).mp h.sound
  have hasc' : Ascending (t.rename f).walk := by rwa [walk_rename]
  refine ⟨?_, hst, ?_, ?_, ?_, ?_⟩
  · rw [ref_rename, h.root]
    rfl
  · exact (sound_iff hp).mpr ⟨⟨d, hwhole.rename⟩, hasc',
      nodup_of_ascending hp hst hwhole.rename.regular hasc', leaves_rename (f := f) t ▸ hlinked.rename⟩
  · rw [leaves_rename, List.getLast?_map, Option.map_map]
    have hlast := congrArg (Option.map f) h.last
    rw [Option.map_map] at hlast
    exact hlast
  · rw [entries_rename]
    exact h.keyed
  · rw [entries_rename]
    exact h.len

omit [Codec I] [Std.TransOrd K] in
theorem Tree.isSome_filter (tree : Tree K I) (t : Subtree K I) : (tree.filter t).isSome = tree.config.hasFilter := by
  rw [filter, filtered, Option.isSome_map, emptyFilter?]
  cases tree.config.hasFilter <;> rfl

omit [Std.TransOrd K] in
theorem Tree.length_image (tree : Tree K I) (f : PageRef → PageRef) (bytes : List UInt8) (t : Subtree K I) :
    bytes.length + extent t.stowed + 44 < (tree.image f bytes t).bytes.length := by
  rw [image, Image.length_ofSealed, List.length_append, length_laid, Header.byteSize, Descriptor.byteSize]
  omega

variable [LawfulCodec K] [LawfulCodec I]

/-- What was written of a tree is opened as that tree, under other names. -/
theorem Tree.reopen_runs (ht : tree.Matches view t) (hvalid : tree.config.validate = .ok ())
    (hcount : tree.measures.length ≤ 65535) {bytes : List UInt8}
    (hsize : (tree.image f bytes t).bytes.length < 2 ^ 64 - 2) (hrate : config.filterRate.isProper = true)
    (capacity : Nat) : ∃ pager, Action.Runs (Tree.openStored config tree.measures tree.keyOf)
        (Pager.ofImage (tree.image f bytes t) capacity) (tree.rename f config) pager
      ∧ pager.Opened (tree.image f bytes t) (tree.filter t) := by
  obtain ⟨hmin, hmax, -⟩ := Config.of_validate hvalid
  obtain ⟨-, hasc, -⟩ := (sound_iff (show 2 ≤ tree.config.pageSize by omega)).mp ht.sound
  have hlen : (UInt64.ofNat tree.len).toNat = tree.len := by
    refine UInt64.toNat_ofNat_of_lt' (show tree.len < 2 ^ 64 from ?_)
    have hentries := Subtree.length_entries_le (increasing_entries hasc)
    have himage := tree.length_image f bytes t
    rw [stowed, extent_append] at himage
    rw [ht.len]
    omega
  have hpageSize : (UInt32.ofNat tree.config.pageSize).toNat = tree.config.pageSize := UInt32.toNat_ofNat_of_lt hmax
  have hmeasures : (UInt16.ofNat tree.measures.length).toNat = tree.measures.length :=
    UInt16.toNat_ofNat_of_lt' (show tree.measures.length < 2 ^ 16 by omega)
  have hdescriptor : (tree.image f bytes t).descriptor = .ok (tree.descriptor f (tree.filter t), tree.filter t) :=
    Image.descriptor_eq (Nat.lt_trans hsize (by decide)) rfl
  have heq : ({
      config := { config with
        pageSize := (tree.descriptor f (tree.filter t)).pageSize.toNat
        hasFilter := (tree.descriptor f (tree.filter t)).hasFilter }
      measures := tree.measures
      keyOf := tree.keyOf
      root := (tree.descriptor f (tree.filter t)).root
      rightmost := (tree.descriptor f (tree.filter t)).rightmost
      len := (tree.descriptor f (tree.filter t)).items.toNat } : Tree K I) = tree.rename f config := by
    unfold Tree.rename Tree.descriptor
    dsimp only
    rw [hpageSize, hlen, isSome_filter]
  have hvalid' : (tree.rename f config).config.validate = .ok () :=
    Config.validate_eq hmin (Nat.le_of_lt_succ hmax) hrate
  rw [← heq] at hvalid' ⊢
  exact Tree.openStored_runs hdescriptor hmeasures hvalid' tree.keyOf capacity

/-- The pages of a tree that was written stand in the image as the tree that is opened knows them. -/
theorem Tree.Matches.written (ht : tree.Matches view t) (hvalid : tree.config.validate = .ok ())
    (hm : t.Measured tree.measures) (hcount : tree.measures.length ≤ 65535)
    (hpayload : ∀ u ∈ t.subtrees, u.stored.payload.length < 2 ^ 32) {bytes : List UInt8}
    (hplaced : Placed f bytes.length t.stowed) (hsize : (tree.image f bytes t).bytes.length < 2 ^ 64 - 2)
    (config : Config) : (tree.rename f config).Matches (tree.image f bytes t).page? (t.rename f) := by
  have hpageSize : 4 ≤ tree.config.pageSize := (Config.of_validate hvalid).1
  obtain ⟨-, -, -, hlinked⟩ := (sound_iff (show 2 ≤ tree.config.pageSize by omega)).mp ht.sound
  have hstorable := ht.storable hvalid hm hcount hpayload
  exact ht.rename hpageSize (storedIn_image hplaced rfl hsize hlinked hstorable) config

end

end PagedIndex
