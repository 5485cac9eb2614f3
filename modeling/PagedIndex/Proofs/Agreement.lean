import PagedIndex.Proofs.Subtree.Renamed
import PagedIndex.Proofs.Verification
import PagedIndex.Tree.Lookup

/-!
# Trees that answer alike

A tree answers what its written-out form says (`Tree.Answers`), so two trees answer alike if they are the same but
for the names of their pages (`Tree.Answers.agrees`). Names show only where a ray starts; there is one place only
where it can (`Ray.Start.unique`), and it is found under its other name.
-/

namespace PagedIndex

/-- The same entry, its leaf having another name. -/
def Cursor.rename (f : PageRef → PageRef) (cursor : Cursor) : Cursor := ⟨f cursor.page, cursor.slot⟩

/-- What was found, its leaf having another name. -/
def Found.rename (f : PageRef → PageRef) (found : Found Cursor) : Found Cursor :=
  ⟨found.fit, found.position.rename f⟩

variable {K I : Type} {f : PageRef → PageRef}

/-! ## Where a ray starts -/

namespace Subtree

variable {t : Subtree K I} {cursor cursor' : Cursor} {as as' bs bs' : List (K × I)}

/-- Of two cuts behind the same entries, none is in a later leaf. -/
theorem eq_nil_of_cuts {front mid rest rest' : List (PageRef × Leaf K I)} {r r' : PageRef} {l l' : Leaf K I}
    (hleaves : (r, l) :: rest = mid ++ (r', l') :: rest') (hl : l.entries = as ++ bs) (hend : bs = [] → rest = [])
    (heq : entriesIn front ++ as = entriesIn (front ++ mid) ++ as') : mid = [] := by
  cases mid with
  | nil => rfl
  | cons leaf mid =>
    obtain ⟨rfl, hrest⟩ := List.cons_eq_cons.mp hleaves
    -- nothing would be left of the first leaf, and then it would be the last one
    have hlength := congrArg List.length heq
    simp only [entriesIn_append, entriesIn_cons, hl, List.length_append] at hlength
    have hnil := hend (List.eq_nil_of_length_eq_zero (by omega))
    rw [hnil] at hrest
    exact absurd hrest.symm (by simp)

theorem Cut.unique (h : t.Cut cursor as bs) (h' : t.Cut cursor' as' bs') (heq : as = as') : cursor = cursor' := by
  cases h with
  | @mk front rest r l a b hleaves hl hend =>
    cases h' with
    | @mk front' rest' r' l' a' b' hleaves' hl' hend' =>
      have hmid : front = front' := by
        obtain ⟨mid, rfl, hmid⟩ | ⟨mid, rfl, hmid⟩ := List.append_eq_append_iff.mp (hleaves.symm.trans hleaves')
        · rw [eq_nil_of_cuts hmid hl hend heq, List.append_nil]
        · rw [eq_nil_of_cuts hmid hl' hend' heq.symm, List.append_nil]
      subst hmid
      obtain ⟨hleaf, -⟩ := List.cons_eq_cons.mp (List.append_cancel_left (hleaves.symm.trans hleaves'))
      rw [List.append_cancel_left heq, (Prod.mk.inj hleaf).1]

theorem Cut.rename (h : t.Cut cursor as bs) : (t.rename f).Cut (cursor.rename f) as bs := by
  have hentries : ∀ leaves : List (PageRef × Leaf K I),
      entriesIn (leaves.map fun leaf => (f leaf.1, leaf.2.rename f)) = entriesIn leaves := fun leaves => by
    rw [entriesIn, List.flatMap_map]
    rfl
  cases h with
  | @mk front rest r l a b hleaves hl hend =>
    have hleaves' : (t.rename f).leaves = front.map (fun leaf => (f leaf.1, leaf.2.rename f))
        ++ (f r, l.rename f) :: rest.map fun leaf => (f leaf.1, leaf.2.rename f) := by
      rw [leaves_rename, hleaves, List.map_append, List.map_cons]
    rw [← hentries front, ← hentries rest]
    exact .mk hleaves' hl fun hb => by rw [hend hb, List.map_nil]

end Subtree

namespace Ray

variable [Ord K] {ray : Ray K} {t : Subtree K I} {found found' : Found Cursor}

omit [Ord K] in
/-- Only one cut of the entries separates those that have a property from those that do not. -/
theorem eq_of_separated {p : K × I → Bool} {as as' bs bs' : List (K × I)} (heq : as ++ bs = as' ++ bs')
    (has : ∀ e ∈ as, p e = true) (hbs : ∀ e ∈ bs, p e = false) (has' : ∀ e ∈ as', p e = true)
    (hbs' : ∀ e ∈ bs', p e = false) : as = as' ∧ bs = bs' := by
  have hfilter := congrArg (List.filter p) heq
  rw [List.filter_append, List.filter_append, List.filter_eq_self.mpr has, List.filter_eq_self.mpr has',
    List.filter_eq_nil_iff.mpr fun e he => by simp [hbs e he],
    List.filter_eq_nil_iff.mpr fun e he => by simp [hbs' e he], List.append_nil, List.append_nil] at hfilter
  subst hfilter
  exact ⟨rfl, List.append_cancel_left heq⟩

/-- A ray starts at one place only. -/
theorem Start.unique (h : ray.Start t found) (h' : ray.Start t found') : found = found' := by
  cases h with
  | @ascending cursor as bs hdirection hcut has hbs =>
    cases h' with
    | @ascending cursor' as' bs' _ hcut' has' hbs' =>
      have heq := hcut.entries_eq.symm.trans hcut'.entries_eq
      obtain ⟨hfront, rfl⟩ := eq_of_separated (p := fun e => !ray.covers e.1) heq (by simpa using has)
        (by simpa using hbs) (by simpa using has') (by simpa using hbs')
      rw [hcut.unique hcut' hfront]
    | descending hdirection' => exact Direction.noConfusion (hdirection.symm.trans hdirection')
    | nowhere hdirection' => exact Direction.noConfusion (hdirection.symm.trans hdirection')
  | @descending cursor as bs e hdirection hcut has he hbs =>
    cases h' with
    | ascending hdirection' => exact Direction.noConfusion (hdirection.symm.trans hdirection')
    | @descending cursor' as' bs' e' _ hcut' has' he' hbs' =>
      have heq := hcut.entries_eq.symm.trans hcut'.entries_eq
      rw [List.append_cons, List.append_cons as'] at heq
      -- here the cut comes after the last entry that is covered
      have hcovered : ∀ {xs : List (K × I)} {x : K × I}, (∀ y ∈ xs, ray.covers y.1 = true) → ray.covers x.1 = true →
          ∀ y ∈ xs ++ [x], ray.covers y.1 = true := by
        intro xs x hxs hx y hy
        obtain hy | hy := List.mem_append.mp hy
        · exact hxs y hy
        · rw [List.mem_singleton.mp hy]
          exact hx
      obtain ⟨hfront, -⟩ := eq_of_separated (p := fun e => ray.covers e.1) heq (hcovered has he) hbs
        (hcovered has' he') hbs'
      obtain ⟨hfront, hlast⟩ := List.append_inj' hfront rfl
      rw [hcut.unique hcut' hfront, (List.cons.inj hlast).1]
    | nowhere _ _ hnone =>
      have hmem : e ∈ t.entries := by
        rw [hcut.entries_eq]
        exact List.mem_append_right _ List.mem_cons_self
      exact absurd (he.symm.trans (hnone e hmem)) (by simp)
  | @nowhere r l rest hdirection hleaves hnone =>
    cases h' with
    | ascending hdirection' => exact Direction.noConfusion (hdirection.symm.trans hdirection')
    | @descending cursor' as' bs' e' _ hcut' has' he' hbs' =>
      have hmem : e' ∈ t.entries := by
        rw [hcut'.entries_eq]
        exact List.mem_append_right _ List.mem_cons_self
      exact absurd (he'.symm.trans (hnone e' hmem)) (by simp)
    | nowhere _ hleaves' => rw [(Prod.mk.inj (List.cons.inj (hleaves.symm.trans hleaves')).1).1]

theorem Start.rename (h : ray.Start t found) : ray.Start (t.rename f) (found.rename f) := by
  cases h with
  | ascending hdirection hcut has hbs => exact .ascending hdirection hcut.rename has hbs
  | descending hdirection hcut has he hbs => exact .descending hdirection hcut.rename has he hbs
  | @nowhere r l rest hdirection hleaves hnone =>
    have hleaves' : (t.rename f).leaves = (f r, l.rename f) :: rest.map fun leaf => (f leaf.1, leaf.2.rename f) := by
      rw [Subtree.leaves_rename, hleaves, List.map_cons]
    exact .nowhere hdirection hleaves' (by rwa [Subtree.entries_rename])

end Ray

/-! ## What is answered -/

namespace Tree

variable [IndexKey K] [Codec I]

/-- What the tree answers behind a pager is what the written-out tree `t` of depth `d` says. -/
structure Answers (tree : Tree K I) (pager : Pager K I) (d : Nat) (t : Subtree K I) : Prop where
  find? : ∀ key, (tree.find? key).answer pager = .ok (itemAt key t.entries)
  contains : ∀ key, (tree.contains key).answer pager = .ok (itemAt key t.entries).isSome
  seekRay : ∀ ray, ∃ found, (tree.seekRay ray).answer pager = .ok found ∧ ray.Start t found
  scan : ∀ ray count, (tree.scan ray count).answer pager = .ok (((ray.along t.entries).take count).map .ok)
  height : tree.height.answer pager = .ok (d + 1)
  measureValues : tree.measureValues.answer pager = .ok t.measures
  measure? : ∀ name, (tree.measure? name).answer pager = .ok ((tree.measures.position? name).bind (t.measures[·]?))

/-- The second tree answers behind its pager what the first one answers behind its own, the pages having the names
that `f` gives them. -/
structure Agrees (f : PageRef → PageRef) (tree : Tree K I) (pager : Pager K I) (tree' : Tree K I)
    (pager' : Pager K I) : Prop where
  find? : ∀ key, (tree'.find? key).answer pager' = (tree.find? key).answer pager
  get : ∀ key, (tree'.get key).answer pager' = (tree.get key).answer pager
  contains : ∀ key, (tree'.contains key).answer pager' = (tree.contains key).answer pager
  seekRay : ∀ ray, ∃ found, (tree.seekRay ray).answer pager = .ok found
    ∧ (tree'.seekRay ray).answer pager' = .ok (found.rename f)
  scan : ∀ ray count, (tree'.scan ray count).answer pager' = (tree.scan ray count).answer pager
  height : tree'.height.answer pager' = tree.height.answer pager
  measureValues : tree'.measureValues.answer pager' = tree.measureValues.answer pager
  measure? : ∀ name, (tree'.measure? name).answer pager' = (tree.measure? name).answer pager

variable {tree tree' : Tree K I} {pager pager' : Pager K I} {d : Nat} {t : Subtree K I}

theorem answer_get {key : K} {item? : Option I} (h : (tree.find? key).answer pager = .ok item?) :
    (tree.get key).answer pager = item?.elim (.error (.failed .keyNotFound)) .ok := by
  obtain ⟨after, hrun⟩ := Action.exists_runs_of_answer h
  cases item? with
  | none => exact (hrun.fails (Action.fails_fail IndexError.keyNotFound after)).answer_eq
  | some item => exact (hrun.bind (Action.runs_pure item after)).answer_eq

/-- Two trees that are the same but for the names of their pages answer alike. -/
theorem Answers.agrees (h : tree.Answers pager d t) (h' : tree'.Answers pager' d (t.rename f))
    (hmeasures : tree'.measures = tree.measures) : Agrees f tree pager tree' pager' where
  find? key := by rw [h.find?, h'.find?, Subtree.entries_rename]
  get key := by rw [answer_get (h.find? key), answer_get (h'.find? key), Subtree.entries_rename]
  contains key := by rw [h.contains, h'.contains, Subtree.entries_rename]
  seekRay ray := by
    obtain ⟨found, hanswer, hstart⟩ := h.seekRay ray
    obtain ⟨found', hanswer', hstart'⟩ := h'.seekRay ray
    refine ⟨found, hanswer, ?_⟩
    rw [hanswer', hstart'.unique hstart.rename]
  scan ray count := by rw [h.scan, h'.scan, Subtree.entries_rename]
  height := by rw [h.height, h'.height]
  measureValues := by rw [h.measureValues, h'.measureValues, Subtree.measures_rename]
  measure? name := by rw [h.measure?, h'.measure?, Subtree.measures_rename, hmeasures]

variable [Std.TransOrd K] {srv : Service K I} {view : PageRef → Option (Page K I)}

/-- A tree whose pages are handed out answers what its written-out form says, provided that it turns away no key that
is there. -/
theorem answers (h : srv.Carries tree d t) (hwide : ∀ e pager, ¬ srv.Refuses e pager) (hserves : srv.Serves pager)
    (hmight : ∀ key, srv.Reads (Pager.mightContain key) fun may => may = false → itemAt key t.entries = none) :
    tree.Answers pager d t := by
  have hanswer : ∀ {α : Type} {x : Paging K I α} {a : α}, srv.Reads x (· = a) → x.answer pager = .ok a := by
    intro α x a hreads
    obtain ⟨_, _, hrun, -, rfl⟩ := hreads.runs hwide hserves
    exact hrun.answer_eq
  refine ⟨fun key => hanswer ?_, fun key => hanswer ?_, fun ray => ?_, fun ray count => hanswer ?_, hanswer ?_,
    hanswer ?_, fun name => hanswer ?_⟩
  · exact Service.reads_find? (hmight key) h.stored h.root h.whole h.ascending h.depth
  · exact Service.reads_contains (hmight key) h.stored h.root h.whole h.ascending h.depth
  · obtain ⟨found, _, hrun, -, hstart⟩ := (h.reads_seekRay ray).runs hwide hserves
    exact ⟨found, hrun.answer_eq, hstart⟩
  · exact h.reads_scan hwide ray count
  · exact Service.reads_height h.stored h.root h.whole.regular h.depth
  · exact Service.reads_measureValues h.stored h.root
  · exact Service.reads_measure? h.stored h.root name

end Tree

end PagedIndex
