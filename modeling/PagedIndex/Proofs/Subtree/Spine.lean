import PagedIndex.Proofs.Subtree.Row
import PagedIndex.Tree.Descent

/-!
# The way to a leaf

A mutation walks down to one leaf and then up again, page by page. What it does to a page depends on the
page alone and on what became of the child it came from, so a tree is looked at as the subtree below that
child within its surroundings: a `Frame` is an inner page with one child left out, and the frames from the
child up to the root are the spine. `plugAll` puts the subtree back. What lies left and right of the spine
stays as it is whatever happens below, which is said once here for the walk, the leaves, the names and the
pages in a store.
-/

namespace PagedIndex

theorem perm_append_right_comm {α : Type} (as bs cs : List α) :
    (as ++ bs ++ cs).Perm (as ++ cs ++ bs) := by
  rw [List.append_assoc, List.append_assoc]
  exact List.perm_append_comm.append_left as

/-- An inner page with one child left out: the children and separators before and behind it. -/
structure Frame (K I : Type) where
  ref : PageRef
  measures : List Int64
  lowKeys : List K
  highKeys : List K
  low : List (Subtree K I)
  high : List (Subtree K I)

namespace Frame

variable {K I : Type}

/-- The inner page with a row put in. -/
def hang (f : Frame K I) (row : Row K I) : Subtree K I :=
  .inner f.ref f.measures (f.lowKeys ++ (row.keys ++ f.highKeys)) (f.low ++ (row.trees ++ f.high))

/-- The inner page with a child put in. -/
def plug (f : Frame K I) (t : Subtree K I) : Subtree K I := f.hang (.single t)

/-- The page itself, the child being called `child`. -/
def page (f : Frame K I) (child : PageRef) : Page K I :=
  ⟨f.ref, f.measures, .inner ⟨f.lowKeys ++ f.highKeys, f.low.map Subtree.ref ++ child :: f.high.map Subtree.ref⟩⟩

/-- How many separators the page has. -/
def size (f : Frame K I) : Nat := f.lowKeys.length + f.highKeys.length

/-- The other children. -/
def sides (f : Frame K I) : List (Subtree K I) := f.low ++ f.high

/-- The names of the page and of everything below its other children. -/
def refs (f : Frame K I) : List PageRef := f.ref :: f.sides.flatMap Subtree.refs

/-- What a walk meets before the child. -/
def before (f : Frame K I) : List (Stop K I) := weave f.lowKeys (f.low.map Subtree.walk)

/-- What a walk meets behind the child. -/
def after (f : Frame K I) : List (Stop K I) := trail f.highKeys (f.high.map Subtree.walk)

/-- There is a separator for each of the other children, and these are filled pages of depth `d`. -/
structure Fits (pageSize d : Nat) (f : Frame K I) : Prop where
  low : f.lowKeys.length = f.low.length
  high : f.highKeys.length = f.high.length
  regular : ∀ c ∈ f.sides, c.Regular pageSize d
  filled : ∀ c ∈ f.sides, c.Filled pageSize

theorem plug_eq (f : Frame K I) (t : Subtree K I) :
    f.plug t = .inner f.ref f.measures (f.lowKeys ++ f.highKeys) (f.low ++ t :: f.high) := rfl

@[simp]
theorem ref_plug (f : Frame K I) (t : Subtree K I) : (f.plug t).ref = f.ref := rfl

theorem page_plug (f : Frame K I) (t : Subtree K I) : (f.plug t).page = f.page t.ref := by
  rw [plug_eq, Subtree.page, page, List.map_append, List.map_cons]

theorem children_page (f : Frame K I) (t : Subtree K I) :
    (f.page t.ref).children = (f.plug t).children.map Subtree.ref := by
  rw [← page_plug, Subtree.children_page]

/-- What is true of a child and of those beside it is true of all children of the page. -/
theorem forall_mem_children_plug {f : Frame K I} {t : Subtree K I} {p : Subtree K I → Prop} (ht : p t)
    (hsides : ∀ c ∈ f.sides, p c) : ∀ c ∈ (f.plug t).children, p c := by
  intro c hc
  rcases List.mem_append.mp hc with hc | hc
  · exact hsides c (List.mem_append_left _ hc)
  · rcases List.mem_cons.mp hc with rfl | hc
    · exact ht
    · exact hsides c (List.mem_append_right _ hc)

/-- The child in front of the one left out. -/
theorem getElem?_before (f : Frame K I) {x : Subtree K I} {xs : List (Subtree K I)} (hx : f.low = xs ++ [x])
    (child : PageRef) : (f.page child).children[xs.length]? = some x.ref := by
  show (f.low.map Subtree.ref ++ child :: f.high.map Subtree.ref)[xs.length]? = _
  simp [hx]

/-- The child behind the one left out. -/
theorem getElem?_after (f : Frame K I) {x : Subtree K I} {xs : List (Subtree K I)} (hx : f.high = x :: xs)
    (child : PageRef) : (f.page child).children[f.low.length + 1]? = some x.ref := by
  show (f.low.map Subtree.ref ++ child :: f.high.map Subtree.ref)[f.low.length + 1]? = _
  rw [List.getElem?_append_right (by rw [List.length_map]; omega), List.length_map, Nat.add_sub_cancel_left, hx]
  rfl

theorem size_hang (f : Frame K I) (row : Row K I) : (f.hang row).size = f.size + row.keys.length := by
  rw [hang, Subtree.size_inner, size, List.length_append, List.length_append]
  omega

theorem size_plug (f : Frame K I) (t : Subtree K I) : (f.plug t).size = f.size := f.size_hang (.single t)

theorem leaves_hang (f : Frame K I) (row : Row K I) : (f.hang row).leaves
    = f.low.flatMap Subtree.leaves ++ row.leaves ++ f.high.flatMap Subtree.leaves := by
  rw [hang, Subtree.leaves_inner, List.flatMap_append, List.flatMap_append, List.append_assoc]
  rfl

theorem leaves_plug (f : Frame K I) (t : Subtree K I) : (f.plug t).leaves
    = f.low.flatMap Subtree.leaves ++ t.leaves ++ f.high.flatMap Subtree.leaves := by
  rw [plug, leaves_hang, Row.leaves_single]

theorem entries_hang (f : Frame K I) (row : Row K I) : (f.hang row).entries
    = f.low.flatMap Subtree.entries ++ row.entries ++ f.high.flatMap Subtree.entries := by
  rw [hang, Subtree.entries_inner, List.flatMap_append, List.flatMap_append, List.append_assoc]
  rfl

theorem entries_plug (f : Frame K I) (t : Subtree K I) : (f.plug t).entries
    = f.low.flatMap Subtree.entries ++ t.entries ++ f.high.flatMap Subtree.entries := by
  rw [plug, entries_hang, Row.entries_single]

theorem refs_hang (f : Frame K I) (row : Row K I) : (f.hang row).refs.Perm (row.refs ++ f.refs) := by
  rw [hang, Subtree.refs_inner, refs, sides, List.flatMap_append, List.flatMap_append,
    List.flatMap_append]
  refine (List.Perm.cons f.ref ?_).trans List.perm_middle.symm
  exact List.perm_append_comm_assoc _ _ _

theorem refs_plug (f : Frame K I) (t : Subtree K I) : (f.plug t).refs.Perm (t.refs ++ f.refs) := by
  have := f.refs_hang (.single t)
  rwa [Row.refs_single] at this

theorem walk_hang {f : Frame K I} (h : f.lowKeys.length = f.low.length) {row : Row K I}
    (hr : row.trees.length = row.keys.length + 1) :
    (f.hang row).walk = f.before ++ row.walk ++ f.after := by
  -- as many separators as subtrees go in front of the row, and a separator comes first behind it
  rw [hang, Subtree.walk_inner, List.map_append, List.map_append,
    weave_append (by rw [h, List.length_map]), weave_append_trail (by rw [List.length_map, hr]),
    ← List.append_assoc]
  rfl

theorem walk_plug {f : Frame K I} (h : f.lowKeys.length = f.low.length) (t : Subtree K I) :
    (f.plug t).walk = f.before ++ t.walk ++ f.after := by
  rw [plug, walk_hang h rfl, Row.walk_single]

variable {pageSize d : Nat}

theorem regular_hang {f : Frame K I} (hf : f.Fits pageSize d) {row : Row K I}
    (hr : row.Fits pageSize d) : (f.hang row).Regular pageSize (d + 1) := by
  refine .inner ?_ ?_ ?_
  · have := hf.low
    have := hf.high
    have := hr.length
    rw [List.length_append, List.length_append, List.length_append, List.length_append]
    omega
  · intro c hc
    rcases List.mem_append.mp hc with hc | hc
    · exact hf.regular c (List.mem_append_left _ hc)
    · rcases List.mem_append.mp hc with hc | hc
      · exact hr.regular c hc
      · exact hf.regular c (List.mem_append_right _ hc)
  · intro c hc
    rcases List.mem_append.mp hc with hc | hc
    · exact hf.filled c (List.mem_append_left _ hc)
    · rcases List.mem_append.mp hc with hc | hc
      · exact hr.filled c hc
      · exact hf.filled c (List.mem_append_right _ hc)

theorem regular_plug {f : Frame K I} (hf : f.Fits pageSize d) {t : Subtree K I}
    (ht : t.Regular pageSize d) (hs : t.Filled pageSize) : (f.plug t).Regular pageSize (d + 1) :=
  regular_hang hf (Row.fits_single.mpr ⟨ht, hs⟩)

theorem storedIn_hang {view : PageRef → Option (Page K I)} {f : Frame K I} {row : Row K I} :
    (f.hang row).StoredIn view ↔ row.StoredIn view ∧ view f.ref = some (f.hang row).page
      ∧ ∀ c ∈ f.sides, c.StoredIn view := by
  rw [hang, Subtree.storedIn_inner, Subtree.page]
  constructor
  · rintro ⟨hr, hc⟩
    refine ⟨fun t ht => hc t ?_, hr, fun c hcs => hc c ?_⟩
    · exact List.mem_append_right _ (List.mem_append_left _ ht)
    · rcases List.mem_append.mp hcs with h | h
      · exact List.mem_append_left _ h
      · exact List.mem_append_right _ (List.mem_append_right _ h)
  · rintro ⟨ht, hr, hc⟩
    refine ⟨hr, fun c hcs => ?_⟩
    rcases List.mem_append.mp hcs with h | h
    · exact hc c (List.mem_append_left _ h)
    · rcases List.mem_append.mp h with h | h
      · exact ht c h
      · exact hc c (List.mem_append_right _ h)

theorem storedIn_plug {view : PageRef → Option (Page K I)} {f : Frame K I} {t : Subtree K I} :
    (f.plug t).StoredIn view ↔ t.StoredIn view ∧ view f.ref = some (f.page t.ref)
      ∧ ∀ c ∈ f.sides, c.StoredIn view := by
  rw [← page_plug, plug, storedIn_hang, Row.storedIn_single]

end Frame

/-! ## Spines -/

/-- A tree put back into its surroundings, the innermost frame first. -/
def plugAll {K I : Type} : List (Frame K I) → Subtree K I → Subtree K I
  | [], t => t
  | f :: fs, t => plugAll fs (f.plug t)

namespace Spine

variable {K I : Type}

/-- What a walk meets left of the spine. -/
def before : List (Frame K I) → List (Stop K I)
  | [] => []
  | f :: fs => before fs ++ f.before

/-- What a walk meets right of the spine. -/
def after : List (Frame K I) → List (Stop K I)
  | [] => []
  | f :: fs => f.after ++ after fs

/-- The subtrees left of the spine. -/
def low : List (Frame K I) → List (Subtree K I)
  | [] => []
  | f :: fs => low fs ++ f.low

/-- The subtrees right of the spine. -/
def high : List (Frame K I) → List (Subtree K I)
  | [] => []
  | f :: fs => f.high ++ high fs

/-- The name of the page at the top, below which `bottom` has its place. -/
def top (bottom : PageRef) : List (Frame K I) → PageRef
  | [] => bottom
  | f :: fs => top f.ref fs

/-- The steps that lead along the spine to the page `bottom`, the deepest one first. -/
def steps (bottom : PageRef) : List (Frame K I) → List (Tree.Step K I)
  | [] => []
  | f :: fs => ⟨f.page bottom, f.low.length⟩ :: steps f.ref fs

/-- The pages of the spine and everything beside it are in a store. -/
def StoredIn (view : PageRef → Option (Page K I)) (bottom : PageRef) : List (Frame K I) → Prop
  | [] => True
  | f :: fs => view f.ref = some (f.page bottom) ∧ (∀ c ∈ f.sides, c.StoredIn view)
    ∧ StoredIn view f.ref fs

/-- The spine above a subtree of depth `d` is that of a regular tree with filled pages, whose root has at
least one separator. -/
def Fits (pageSize : Nat) : Nat → List (Frame K I) → Prop
  | _, [] => True
  | d, f :: fs => f.Fits pageSize d ∧ f.size ≤ pageSize
    ∧ (if fs = [] then 1 else pageSize / 2) ≤ f.size ∧ Fits pageSize (d + 1) fs

@[simp]
theorem length_steps (bottom : PageRef) (fs : List (Frame K I)) :
    (steps bottom fs).length = fs.length := by
  induction fs generalizing bottom with
  | nil => rfl
  | cons f fs ih => rw [steps, List.length_cons, ih, List.length_cons]

theorem refs_steps (bottom : PageRef) (fs : List (Frame K I)) :
    (steps bottom fs).map (·.page.ref) = fs.map Frame.ref := by
  induction fs generalizing bottom with
  | nil => rfl
  | cons f fs ih =>
    rw [steps, List.map_cons, ih, List.map_cons]
    rfl

theorem ref_plugAll (fs : List (Frame K I)) (t : Subtree K I) : (plugAll fs t).ref = top t.ref fs := by
  induction fs generalizing t with
  | nil => rfl
  | cons f fs ih => exact ih (f.plug t)

/-- The page at the top is that of the last step, if there is one. -/
theorem getLast?_steps (fs : List (Frame K I)) (t : Subtree K I) :
    ((steps t.ref fs).getLast?.map (·.page)).getD t.page = (plugAll fs t).page := by
  induction fs generalizing t with
  | nil => rfl
  | cons f fs ih =>
    rw [plugAll, ← ih (f.plug t), steps]
    cases fs with
    | nil => exact (f.page_plug t).symm
    | cons g fs =>
      rw [Frame.ref_plug, steps, List.getLast?_cons_cons, List.getLast?_cons]
      rfl

theorem root_steps (fs : List (Frame K I)) (t : Subtree K I) :
    ((steps t.ref fs).getLast?.map (·.page.ref)).getD t.ref = (plugAll fs t).ref := by
  rw [← Subtree.ref_page (plugAll fs t), ← getLast?_steps]
  cases (steps t.ref fs).getLast? with
  | none => exact t.ref_page.symm
  | some step => rfl

theorem steps_concat (bottom : PageRef) (fs : List (Frame K I)) (f : Frame K I) :
    steps bottom (fs ++ [f]) = steps bottom fs ++ [⟨f.page (top bottom fs), f.low.length⟩] := by
  induction fs generalizing bottom with
  | nil => rfl
  | cons g fs ih => rw [List.cons_append, steps, ih, steps, List.cons_append, top]

theorem plugAll_concat (fs : List (Frame K I)) (f : Frame K I) (t : Subtree K I) :
    plugAll (fs ++ [f]) t = f.plug (plugAll fs t) := by
  induction fs generalizing t with
  | nil => rfl
  | cons g fs ih => exact ih (g.plug t)

theorem leaves_plugAll (fs : List (Frame K I)) (t : Subtree K I) : (plugAll fs t).leaves
    = (low fs).flatMap Subtree.leaves ++ t.leaves ++ (high fs).flatMap Subtree.leaves := by
  induction fs generalizing t with
  | nil => exact (List.append_nil _).symm
  | cons f fs ih =>
    rw [plugAll, ih, Frame.leaves_plug, low, high, List.flatMap_append, List.flatMap_append]
    simp only [List.append_assoc]

theorem entries_plugAll (fs : List (Frame K I)) (t : Subtree K I) : (plugAll fs t).entries
    = (low fs).flatMap Subtree.entries ++ t.entries ++ (high fs).flatMap Subtree.entries := by
  induction fs generalizing t with
  | nil => exact (List.append_nil _).symm
  | cons f fs ih =>
    rw [plugAll, ih, Frame.entries_plug, low, high, List.flatMap_append, List.flatMap_append]
    simp only [List.append_assoc]

theorem refs_plugAll (fs : List (Frame K I)) (t : Subtree K I) :
    (plugAll fs t).refs.Perm (t.refs ++ fs.flatMap Frame.refs) := by
  induction fs generalizing t with
  | nil => rw [plugAll, List.flatMap_nil, List.append_nil]
  | cons f fs ih =>
    rw [plugAll, List.flatMap_cons, ← List.append_assoc]
    exact (ih (f.plug t)).trans (List.Perm.append_right _ (f.refs_plug t))

/-- Trees of the same pages make the same pages at the end of a spine. -/
theorem refs_plugAll_perm (fs : List (Frame K I)) {t t' : Subtree K I} (h : t'.refs.Perm t.refs) :
    (plugAll fs t').refs.Perm (plugAll fs t).refs :=
  (refs_plugAll fs t').trans ((h.append_right _).trans (refs_plugAll fs t).symm)

/-- What lies in front of a cut through the leaf at the end of a spine, and what behind it. -/
theorem entries_plugAll_leaf (fs : List (Frame K I)) (r : PageRef) (m : List Int64) {l : Leaf K I}
    {as bs : List (K × I)} (hcut : l.entries = as ++ bs) : (plugAll fs (.leaf r m l)).entries
      = ((low fs).flatMap Subtree.entries ++ as) ++ (bs ++ (high fs).flatMap Subtree.entries) := by
  rw [entries_plugAll, Subtree.entries_leaf, hcut]
  simp only [List.append_assoc]

theorem refs_subset_plugAll (fs : List (Frame K I)) (t : Subtree K I) : t.refs ⊆ (plugAll fs t).refs :=
  fun _ hr => (refs_plugAll fs t).symm.subset (List.mem_append_left _ hr)

/-- The pages beside the way are pages of the tree. -/
theorem children_steps_subset {fs : List (Frame K I)} {t : Subtree K I} {step : Tree.Step K I}
    (h : step ∈ steps t.ref fs) : step.page.children ⊆ (plugAll fs t).refs := by
  induction fs generalizing t with
  | nil => exact absurd h List.not_mem_nil
  | cons f fs ih =>
    rw [steps] at h
    rcases List.mem_cons.mp h with rfl | h
    · refine fun r hr => refs_subset_plugAll fs (f.plug t) ?_
      rw [Frame.children_page] at hr
      obtain ⟨c, hc, rfl⟩ := List.mem_map.mp hr
      exact Subtree.refs_child_subset hc c.ref_mem_refs
    · exact ih (t := f.plug t) h

/-- What is nowhere in a tree is nowhere in a part of it. -/
theorem nodup_of_plugAll {fs : List (Frame K I)} {t : Subtree K I} {others : List PageRef}
    (h : ((plugAll fs t).refs ++ others).Nodup) : (t.refs ++ others).Nodup := by
  have hperm := ((refs_plugAll fs t).append_right others).trans (perm_append_right_comm _ _ _)
  exact (List.nodup_append.mp (hperm.nodup_iff.mp h)).1

theorem storedIn_plugAll {view : PageRef → Option (Page K I)} {fs : List (Frame K I)}
    {t : Subtree K I} : (plugAll fs t).StoredIn view ↔ t.StoredIn view ∧ StoredIn view t.ref fs := by
  induction fs generalizing t with
  | nil => exact ⟨fun h => ⟨h, trivial⟩, fun h => h.1⟩
  | cons f fs ih =>
    rw [plugAll, ih, Frame.storedIn_plug, StoredIn, Frame.ref_plug]
    tauto

/-- A spine stays stored as long as nobody touches its pages. -/
theorem StoredIn.congr {view view' : PageRef → Option (Page K I)} {bottom : PageRef}
    {fs : List (Frame K I)} (h : StoredIn view bottom fs)
    (hv : ∀ r ∈ fs.flatMap Frame.refs, view' r = view r) : StoredIn view' bottom fs := by
  induction fs generalizing bottom with
  | nil => trivial
  | cons f fs ih =>
    rw [List.flatMap_cons] at hv
    obtain ⟨hr, hc, hrest⟩ := h
    refine ⟨?_, fun c hcs => ?_, ih hrest fun r hr => hv r (List.mem_append_right _ hr)⟩
    · rw [hv f.ref (List.mem_append_left _ List.mem_cons_self), hr]
    · refine (hc c hcs).congr fun r hr' => hv r (List.mem_append_left _ ?_)
      exact List.mem_cons_of_mem _ (List.mem_flatMap.mpr ⟨c, hcs, hr'⟩)

theorem entries_before (fs : List (Frame K I)) :
    (before fs).filterMap Stop.entry? = (low fs).flatMap Subtree.entries := by
  induction fs with
  | nil => rfl
  | cons f fs ih =>
    rw [before, low, List.filterMap_append, List.flatMap_append, ih, Frame.before, entries_weave,
      List.flatMap_map]
    exact congrArg _ (List.flatMap_congr fun c _ => c.entries_walk)

theorem entries_after (fs : List (Frame K I)) :
    (after fs).filterMap Stop.entry? = (high fs).flatMap Subtree.entries := by
  induction fs with
  | nil => rfl
  | cons f fs ih =>
    rw [after, high, List.filterMap_append, List.flatMap_append, ih, Frame.after, entries_trail,
      List.flatMap_map]
    exact congrArg (· ++ _) (List.flatMap_congr fun c _ => c.entries_walk)

variable {pageSize d : Nat}

theorem walk_plugAll {fs : List (Frame K I)} (h : Fits pageSize d fs) (t : Subtree K I) :
    (plugAll fs t).walk = before fs ++ t.walk ++ after fs := by
  induction fs generalizing t d with
  | nil => exact (List.append_nil _).symm
  | cons f fs ih =>
    rw [plugAll, ih h.2.2.2, Frame.walk_plug h.1.low, before, after]
    simp only [List.append_assoc]

theorem Fits.size_ge {f : Frame K I} {fs : List (Frame K I)} (h : Fits pageSize d (f :: fs))
    (hp : 2 ≤ pageSize) : 1 ≤ f.size := by
  have := h.2.2.1
  split at this <;> omega

theorem regular_plugAll {fs : List (Frame K I)} (h : Fits pageSize d fs) {t : Subtree K I}
    (ht : t.Regular pageSize d) (hs : fs ≠ [] → t.Filled pageSize) :
    (plugAll fs t).Regular pageSize (d + fs.length) := by
  induction fs generalizing t d with
  | nil => exact ht
  | cons f fs ih =>
    have hplug := Frame.regular_plug h.1 ht (hs (by simp))
    rw [List.length_cons, show d + (fs.length + 1) = d + 1 + fs.length by omega]
    refine ih h.2.2.2 hplug fun hne => ?_
    have := h.2.2.1
    rw [if_neg hne] at this
    exact ⟨by rw [Frame.size_plug]; exact this, by rw [Frame.size_plug]; exact h.2.1⟩

/-- A whole tree is a subtree that fits at the end of a spine. -/
theorem whole_plugAll {fs : List (Frame K I)} (h : Fits pageSize d fs) (hp : 2 ≤ pageSize) {t : Subtree K I}
    (ht : t.Whole pageSize d) (hs : fs ≠ [] → t.Filled pageSize) :
    (plugAll fs t).Whole pageSize (d + fs.length) := by
  induction fs generalizing t d with
  | nil => exact ht
  | cons f fs ih =>
    rw [List.length_cons, show d + (fs.length + 1) = d + 1 + fs.length by omega]
    refine ih h.2.2.2 ⟨Frame.regular_plug h.1 ht.regular (hs (by simp)), ?_, fun _ => ?_⟩ fun hne => ?_
    · rw [Frame.size_plug]
      exact h.2.1
    · rw [Frame.size_plug]
      exact h.size_ge hp
    · have := h.2.2.1
      rw [if_neg hne] at this
      exact ⟨by rw [Frame.size_plug]; exact this, by rw [Frame.size_plug]; exact h.2.1⟩

end Spine

end PagedIndex
