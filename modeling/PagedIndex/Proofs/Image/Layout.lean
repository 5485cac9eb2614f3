import PagedIndex.Proofs.Subtree.Renamed
import PagedIndex.Image.NodeFormat

/-!
# The order in which a tree is stored

The leaves are stored first, from left to right, and then the inner pages, each behind all that is below it
(`Subtree.stowed`). Under names that are offsets (`Placed`) the tree can be written down in one go, since what a page
takes up does not depend on the names in it.
-/

namespace PagedIndex.Subtree

variable {K I : Type} {f g : PageRef → PageRef}

/-! ## The order of pages -/

/-- The leaves, from left to right. -/
def tips : Subtree K I → List (Subtree K I)
  | .leaf r m l => [.leaf r m l]
  | .inner _ _ _ cs => cs.flatMap tips

/-- The inner pages, each behind those that are below it. -/
def inners : Subtree K I → List (Subtree K I)
  | .leaf .. => []
  | .inner r m ks cs => cs.flatMap inners ++ [.inner r m ks cs]

/-- All pages, in the order in which they are stored. -/
def stowed (t : Subtree K I) : List (Subtree K I) := t.tips ++ t.inners

theorem tips_leaf (r : PageRef) (m : List Int64) (l : Leaf K I) : (Subtree.leaf r m l).tips = [.leaf r m l] := by
  rw [tips]

theorem tips_inner (r : PageRef) (m : List Int64) (ks : List K) (cs : List (Subtree K I)) :
    (Subtree.inner r m ks cs).tips = cs.flatMap tips := by rw [tips]

theorem inners_leaf (r : PageRef) (m : List Int64) (l : Leaf K I) : (Subtree.leaf r m l).inners = [] := by rw [inners]

theorem inners_inner (r : PageRef) (m : List Int64) (ks : List K) (cs : List (Subtree K I)) :
    (Subtree.inner r m ks cs).inners = cs.flatMap inners ++ [.inner r m ks cs] := by rw [inners]

/-- Every page is stored, and none of them twice. -/
theorem stowed_perm (t : Subtree K I) : t.stowed.Perm t.subtrees := by
  induction t using subtrees.induct with
  | case1 r m l => rw [stowed, tips_leaf, inners_leaf, subtrees_leaf, List.append_nil]
  | case2 r m ks cs ih =>
    have hparts : (cs.flatMap tips ++ cs.flatMap inners).Perm (cs.flatMap subtrees) :=
      (List.flatMap_append_perm cs tips inners).trans (List.Perm.flatMap_left cs ih)
    rw [stowed, tips_inner, inners_inner, subtrees_inner, ← List.append_assoc]
    exact (List.perm_append_singleton _ _).trans (hparts.cons _)

theorem leaves_tips (t : Subtree K I) : t.tips.flatMap leaves = t.leaves := by
  induction t using subtrees.induct with
  | case1 r m l => rw [tips_leaf, List.flatMap_singleton]
  | case2 r m ks cs ih =>
    rw [tips_inner, List.flatMap_assoc, leaves_inner]
    exact List.flatMap_congr ih

theorem eq_leaf_of_mem_tips {t u : Subtree K I} (h : u ∈ t.tips) : ∃ r m l, u = .leaf r m l := by
  induction t using subtrees.induct with
  | case1 r m l =>
    rw [tips_leaf, List.mem_singleton] at h
    exact ⟨r, m, l, h⟩
  | case2 r m ks cs ih =>
    rw [tips_inner] at h
    obtain ⟨c, hc, hu⟩ := List.mem_flatMap.mp h
    exact ih c hc hu

theorem map_ref_tips (t : Subtree K I) : t.tips.map ref = t.leaves.map Prod.fst := by
  rw [← leaves_tips, List.map_flatMap, ← List.flatMap_pure_eq_map]
  refine List.flatMap_congr fun u hu => ?_
  obtain ⟨r, m, l, rfl⟩ := eq_leaf_of_mem_tips hu
  rw [leaves_leaf]
  rfl

theorem entries_tips (t : Subtree K I) : t.tips.flatMap entries = t.entries := by
  rw [entries, ← leaves_tips, List.flatMap_assoc]
  rfl

theorem tips_rename (t : Subtree K I) : (t.rename f).tips = t.tips.map (rename f) := by
  induction t using subtrees.induct with
  | case1 r m l => rw [tips_leaf, rename_leaf, tips_leaf, List.map_singleton, rename_leaf]
  | case2 r m ks cs ih =>
    rw [tips_inner, rename_inner, tips_inner, List.flatMap_map, List.map_flatMap]
    exact List.flatMap_congr ih

theorem inners_rename (t : Subtree K I) : (t.rename f).inners = t.inners.map (rename f) := by
  induction t using subtrees.induct with
  | case1 r m l => rw [inners_leaf, rename_leaf, inners_leaf, List.map_nil]
  | case2 r m ks cs ih =>
    rw [inners_inner, List.map_append, List.map_singleton, rename_inner, inners_inner, List.flatMap_map,
      List.map_flatMap]
    exact congrArg (· ++ _) (List.flatMap_congr ih)

/-- The order has nothing to do with names. -/
theorem stowed_rename (t : Subtree K I) : (t.rename f).stowed = t.stowed.map (rename f) := by
  rw [stowed, tips_rename, inners_rename, ← List.map_append, stowed]

variable [Codec K] [Codec I]

/-! ## What a page takes up -/

/-- The page at the top in stored form. -/
def stored (t : Subtree K I) : StoredPage := StoredPage.ofNode t.page.node t.measures

/-- How many bytes some pages take up. -/
def extent : List (Subtree K I) → Nat
  | [] => 0
  | u :: us => u.stored.byteSize + extent us

@[simp]
theorem extent_append (as bs : List (Subtree K I)) : extent (as ++ bs) = extent as + extent bs := by
  induction as with
  | nil => exact (Nat.zero_add _).symm
  | cons u as ih => rw [List.cons_append, extent, extent, ih, Nat.add_assoc]

/-- Under other names a page takes up as much. -/
theorem length_payload_rename (t : Subtree K I) :
    (t.rename f).stored.payload.length = t.stored.payload.length := by
  cases t with
  | leaf r m l => rw [rename_leaf]; rfl
  | inner r m ks cs =>
    have hslots : ∀ children : List PageRef, ((ks.zip (children.map f)).flatMap fun slot =>
        Codec.encode slot.1 ++ Bytes.ofWord64 slot.2.id).length = ((ks.zip children).flatMap fun slot =>
        Codec.encode slot.1 ++ Bytes.ofWord64 slot.2.id).length := by
      intro children
      rw [List.zip_map_right, List.flatMap_map, List.length_flatMap, List.length_flatMap]
      refine congrArg List.sum (List.map_congr_left fun slot _ => ?_)
      simp [Bytes.ofWord64, Bytes.LittleEndian.length_ofNat]
    rw [rename_inner]
    unfold stored StoredPage.ofNode
    simp only [page, measures, map_ref_rename, List.length_append, ← List.map_drop, hslots]
    congr 2
    cases cs <;> simp [Bytes.ofWord64, Bytes.LittleEndian.length_ofNat]

theorem byteSize_rename (t : Subtree K I) : (t.rename f).stored.byteSize = t.stored.byteSize := by
  have hkind : (t.rename f).stored.kind = t.stored.kind := by
    cases t with
    | leaf => rw [rename_leaf]; rfl
    | inner => rw [rename_inner]; rfl
  rw [StoredPage.byteSize, StoredPage.byteSize, hkind, length_payload_rename]

/-- Some pages under other names, written down one behind the other. -/
def laid (f : PageRef → PageRef) (us : List (Subtree K I)) : List UInt8 :=
  us.flatMap fun u => (u.rename f).stored.toBytes

@[simp]
theorem laid_append (as bs : List (Subtree K I)) : laid f (as ++ bs) = laid f as ++ laid f bs := List.flatMap_append

/-- Pages that got other names already are written down under those they get last. -/
theorem laid_rename (us : List (Subtree K I)) : laid g (us.map (rename f)) = laid (g ∘ f) us := by
  rw [laid, laid, List.flatMap_map]
  exact List.flatMap_congr fun u _ => by rw [rename_rename]

theorem length_laid (us : List (Subtree K I)) : (laid f us).length = extent us := by
  induction us with
  | nil => rfl
  | cons u us ih =>
    rw [laid, List.flatMap_cons, List.length_append, StoredPage.length_toBytes, byteSize_rename]
    exact congrArg _ ih

/-! ## Names that are offsets -/

/-- The pages that are stored one behind the other from `start` on have their offsets as names. -/
def Placed (f : PageRef → PageRef) : Nat → List (Subtree K I) → Prop
  | _, [] => True
  | start, u :: us => f u.ref = .ofNat start ∧ Placed f (start + u.stored.byteSize) us

theorem placed_append {start : Nat} {as bs : List (Subtree K I)} :
    Placed f start (as ++ bs) ↔ Placed f start as ∧ Placed f (start + extent as) bs := by
  induction as generalizing start with
  | nil => exact ⟨fun h => ⟨trivial, h⟩, fun h => h.2⟩
  | cons u as ih =>
    rw [List.cons_append, Placed, Placed, ih, extent, and_assoc, Nat.add_assoc]

/-- Pages that got other names already have their offsets as names last if they would have them at once. -/
theorem placed_rename {start : Nat} {us : List (Subtree K I)} :
    Placed g start (us.map (rename f)) ↔ Placed (g ∘ f) start us := by
  induction us generalizing start with
  | nil => exact Iff.rfl
  | cons u us ih =>
    rw [List.map_cons, Placed, Placed, ref_rename, byteSize_rename, ih]
    exact Iff.rfl

/-- Pages of different names can be given their offsets as names. -/
theorem exists_placed {us : List (Subtree K I)} (hnd : (us.map ref).Nodup) (start : Nat) :
    ∃ f, Placed f start us := by
  have hcongr : ∀ {f g : PageRef → PageRef} {start : Nat} {us : List (Subtree K I)},
      (∀ u ∈ us, g u.ref = f u.ref) → Placed f start us → Placed g start us := by
    intro f g start us hfg h
    induction us generalizing start with
    | nil => trivial
    | cons u us ih =>
      exact ⟨(hfg u List.mem_cons_self).trans h.1, ih (fun v hv => hfg v (List.mem_cons_of_mem u hv)) h.2⟩
  induction us generalizing start with
  | nil => exact ⟨id, trivial⟩
  | cons u us ih =>
    obtain ⟨hu, hnd⟩ := List.nodup_cons.mp hnd
    obtain ⟨f, hf⟩ := ih hnd (start + u.stored.byteSize)
    refine ⟨Function.update f u.ref (.ofNat start), Function.update_self .., hcongr (fun v hv => ?_) hf⟩
    exact Function.update_of_ne (fun heq : v.ref = u.ref => hu (heq ▸ List.mem_map_of_mem hv)) _ _

end PagedIndex.Subtree
