import PagedIndex.Index.Basic
import PagedIndex.Proofs.Resident
import PagedIndex.Proofs.Subtree.Spine

/-!
# Changes in place

The second phase of a mutation writes on pages and on the tree and calls no pager. Every such step runs, and
leaves a state in which only the pages it wrote on differ: `Redrawn` says which pages these may be, and that
nothing else about the pager has changed.
-/

namespace PagedIndex

variable {K I : Type}

/-! ## The pager -/

namespace Pager

/-- The pager without its pages. -/
def blank (pager : Pager K I) : Pager K I :=
  match pager.backing with
  | .resident store => { pager with backing := .resident { store with pages := ∅ } }
  | .imaged _ => pager

theorem blank_update (pager : Pager K I) (ref : PageRef) (change : Page K I → Page K I) :
    (pager.update ref change).blank = pager.blank := by
  obtain ⟨backing, gate, preset⟩ := pager
  cases backing with
  | imaged store => rfl
  | resident store =>
    simp only [update, blank, Resident.update]
    split <;> rfl

theorem page?_update (pager : Pager K I) (ref : PageRef) (change : Page K I → Page K I) (r : PageRef) :
    (pager.update ref change).page? r = if ref = r then (pager.page? r).map change else pager.page? r := by
  obtain ⟨backing, gate, preset⟩ := pager
  cases backing with
  | imaged store => exact (ite_self _).symm
  | resident store =>
    show (store.update ref change).pages.get? r
      = if ref = r then (store.pages.get? r).map change else store.pages.get? r
    unfold Resident.update
    cases h : store.pages.get? ref with
    | none =>
      by_cases heq : ref = r
      · rw [if_pos heq, ← heq, h]
        rfl
      · rw [if_neg heq]
    | some page =>
      dsimp only
      rw [Table.get?_insert]
      by_cases heq : ref = r
      · rw [if_pos heq, if_pos heq, ← heq, h]
        rfl
      · rw [if_neg heq, if_neg heq]

theorem gate_of_blank {p q : Pager K I} (h : q.blank = p.blank) : q.gate = p.gate := by
  have hg : ∀ pager : Pager K I, pager.blank.gate = pager.gate := by
    rintro ⟨_ | _, gate, preset⟩ <;> rfl
  rw [← hg q, h, hg p]

theorem next_of_blank {p q : Pager K I} (h : q.blank = p.blank) : q.next = p.next := by
  have hn : ∀ pager : Pager K I, pager.blank.next = pager.next := by
    rintro ⟨_ | _, gate, preset⟩ <;> rfl
  rw [← hn q, h, hn p]

theorem counters_of_blank {p q : Pager K I} (h : q.blank = p.blank) : q.counters = p.counters := by
  have hc : ∀ pager : Pager K I, pager.blank.counters = pager.counters := by
    intro pager
    rcases hb : pager.backing with store | store <;> simp only [blank, counters, hb]
  rw [← hc q, h, hc p]

theorem Called.of_blank {calls : Calls} {p q r : Pager K I} (h : Called calls p q) (hb : r.blank = q.blank) :
    Called calls p r where
  gate := (gate_of_blank hb).trans h.gate
  hits := by rw [counters_of_blank hb, h.hits]
  next := by rw [next_of_blank hb, h.next]

theorem Ready.of_blank {p q : Pager K I} (hp : p.Ready) (h : q.blank = p.blank)
    (hn : ∀ r, (q.page? r).map Page.ref = (p.page? r).map Page.ref) : q.Ready := by
  -- the stage and the next name are not in the pages, and every page kept its name
  refine ⟨?_, fun r page hr => ?_, fun r hr => ?_⟩
  · obtain ⟨store, hs⟩ := hp.started
    obtain ⟨backing, gate, preset⟩ := p
    obtain ⟨backing', gate', preset'⟩ := q
    obtain rfl : backing = .resident store := hs.backing
    cases backing' with
    | imaged store' => exact absurd (congrArg Pager.backing h) (by simp [blank])
    | resident store' =>
      have hb : (Backing.resident { store' with pages := ∅ } : Backing K I)
          = .resident { store with pages := ∅ } := congrArg Pager.backing h
      exact ⟨store', rfl, (congrArg Resident.life (Backing.resident.inj hb)).trans hs.ready⟩
  · have := hn r
    rw [hr, Option.map_some, eq_comm, Option.map_eq_some_iff] at this
    obtain ⟨page', hpage, heq⟩ := this
    rw [← heq, hp.named r page' hpage]
  · rw [next_of_blank h]
    refine hp.numbered r ?_
    rwa [← Option.isSome_map, ← hn r, Option.isSome_map]

end Pager

namespace Index

/-! ## What a change leaves alone -/

/-- Only these pages may differ, no page has come or gone, and what an index is made for is as it was. -/
structure Redrawn (rs : List PageRef) (s t : Index K I) : Prop where
  blank : t.pager.blank = s.pager.blank
  names : ∀ r, (t.pager.page? r).map Page.ref = (s.pager.page? r).map Page.ref
  frame : ∀ r ∉ rs, t.pager.page? r = s.pager.page? r
  config : t.tree.config = s.tree.config
  measures : t.tree.measures = s.tree.measures
  keyOf : t.tree.keyOf = s.tree.keyOf

/-- What an index is made for, and the gate before its pages, are as they were. -/
structure Alike (s t : Index K I) : Prop where
  gate : t.pager.gate = s.pager.gate
  config : t.tree.config = s.tree.config
  measures : t.tree.measures = s.tree.measures
  keyOf : t.tree.keyOf = s.tree.keyOf

/-- Pages may differ in the values that they carry, and in nothing else. -/
def Revalued (s t : Index K I) : Prop :=
  ∀ r page, s.pager.page? r = some page → ∃ m, t.pager.page? r = some { page with measures := m }

variable {s t u : Index K I} {rs rs' : List PageRef}

theorem Revalued.refl (s : Index K I) : Revalued s s := fun _ page hpage => ⟨page.measures, hpage⟩

theorem Revalued.trans (h : Revalued s t) (h' : Revalued t u) : Revalued s u := by
  intro r page hpage
  obtain ⟨m, hm⟩ := h r page hpage
  exact h' r { page with measures := m } hm

theorem Alike.refl (s : Index K I) : Alike s s := ⟨rfl, rfl, rfl, rfl⟩

theorem Alike.trans (h : Alike s t) (h' : Alike t u) : Alike s u :=
  ⟨h'.gate.trans h.gate, h'.config.trans h.config, h'.measures.trans h.measures, h'.keyOf.trans h.keyOf⟩

theorem Redrawn.refl (rs : List PageRef) (s : Index K I) : Redrawn rs s s :=
  ⟨rfl, fun _ => rfl, fun _ _ => rfl, rfl, rfl, rfl⟩

theorem Redrawn.mono (h : Redrawn rs s t) (hs : rs ⊆ rs') : Redrawn rs' s t :=
  { h with frame := fun r hr => h.frame r fun hmem => hr (hs hmem) }

theorem Redrawn.trans (h : Redrawn rs s t) (h' : Redrawn rs t u) : Redrawn rs s u where
  blank := h'.blank.trans h.blank
  names r := (h'.names r).trans (h.names r)
  frame r hr := (h'.frame r hr).trans (h.frame r hr)
  config := h'.config.trans h.config
  measures := h'.measures.trans h.measures
  keyOf := h'.keyOf.trans h.keyOf

theorem Redrawn.append (h : Redrawn rs s t) (h' : Redrawn rs' t u) : Redrawn (rs ++ rs') s u :=
  (h.mono (List.subset_append_left _ _)).trans (h'.mono (List.subset_append_right _ _))

theorem Redrawn.live (h : Redrawn rs s t) (r : PageRef) :
    (t.pager.page? r).isSome = (s.pager.page? r).isSome := by
  have := congrArg Option.isSome (h.names r)
  rwa [Option.isSome_map, Option.isSome_map] at this

theorem Redrawn.alike (h : Redrawn rs s t) : Alike s t :=
  ⟨Pager.gate_of_blank h.blank, h.config, h.measures, h.keyOf⟩

/-- Of the tree only root, last leaf and number of items may differ. -/
theorem Redrawn.tree_eq (h : Redrawn rs s t) : t.tree
    = { s.tree with root := t.tree.root, rightmost := t.tree.rightmost, len := t.tree.len } := by
  dsimp only
  rw [← h.config, ← h.measures, ← h.keyOf]

/-- Behind a gate that refuses nothing, what an index is made for stays as it is along with the gate. -/
theorem alike_of_called {calls : Calls} (h : Pager.Called calls s.pager t.pager) (hg : s.pager.gate = .wide)
    (htree : t.tree
      = { s.tree with root := t.tree.root, rightmost := t.tree.rightmost, len := t.tree.len }) : Alike s t where
  gate := (h.wide hg).trans hg.symm
  config := by rw [htree]
  measures := by rw [htree]
  keyOf := by rw [htree]

theorem Redrawn.ready (h : Redrawn rs s t) (hs : s.pager.Ready) : t.pager.Ready :=
  hs.of_blank h.blank h.names

/-- The page `r` may differ in the values that it carries, and no other page differs. -/
theorem Redrawn.revalued {r : PageRef} (h : Redrawn [r] s t)
    (hr : ∀ page, s.pager.page? r = some page → ∃ m, t.pager.page? r = some { page with measures := m }) :
    Revalued s t := by
  intro r' page hpage
  by_cases heq : r' = r
  · exact heq ▸ hr page (heq ▸ hpage)
  · exact ⟨page.measures, (h.frame r' fun hmem => heq (List.mem_singleton.mp hmem)).trans hpage⟩

/-! ## Steps -/

/-- The index with one page changed. -/
def patch (s : Index K I) (ref : PageRef) (change : Page K I → Page K I) : Index K I :=
  { s with pager := s.pager.update ref change }

theorem redrawn_patch (s : Index K I) (ref : PageRef) (change : Page K I → Page K I)
    (hc : ∀ page, (change page).ref = page.ref) : Redrawn [ref] s (s.patch ref change) := by
  refine ⟨s.pager.blank_update ref change, fun r => ?_, fun r hr => ?_, rfl, rfl, rfl⟩
  · show ((s.pager.update ref change).page? r).map Page.ref = _
    rw [Pager.page?_update]
    split
    · rw [Option.map_map]
      exact congrArg (fun f => (s.pager.page? r).map f) (funext hc)
    · rfl
  · show (s.pager.update ref change).page? r = _
    rw [Pager.page?_update, if_neg]
    rintro rfl
    exact hr (List.mem_singleton.mpr rfl)

theorem page?_patch {ref : PageRef} {page : Page K I} (h : s.pager.page? ref = some page)
    (change : Page K I → Page K I) : (s.patch ref change).pager.page? ref = some (change page) := by
  show (s.pager.update ref change).page? ref = _
  rw [Pager.page?_update, if_pos rfl, h]
  rfl

theorem page?_patch_ne {ref r : PageRef} (h : ref ≠ r) (change : Page K I → Page K I) :
    (s.patch ref change).pager.page? r = s.pager.page? r := by
  show (s.pager.update ref change).page? r = _
  rw [Pager.page?_update, if_neg h]

/-- The index with another node in a page. -/
def withNode (s : Index K I) (ref : PageRef) (node : Node K I) : Index K I :=
  s.patch ref fun page => { page with node }

/-- The index with other values in a page. -/
def withMeasures (s : Index K I) (ref : PageRef) (measures : List Int64) : Index K I :=
  s.patch ref fun page => { page with measures }

@[simp]
theorem tree_withNode (s : Index K I) (ref : PageRef) (node : Node K I) :
    (s.withNode ref node).tree = s.tree := rfl

theorem redrawn_withNode (s : Index K I) (ref : PageRef) (node : Node K I) :
    Redrawn [ref] s (s.withNode ref node) := redrawn_patch s ref _ fun _ => rfl

theorem redrawn_withMeasures (s : Index K I) (ref : PageRef) (measures : List Int64) :
    Redrawn [ref] s (s.withMeasures ref measures) := redrawn_patch s ref _ fun _ => rfl

theorem page?_withNode {ref : PageRef} {page : Page K I} (h : s.pager.page? ref = some page)
    (node : Node K I) : (s.withNode ref node).pager.page? ref = some { page with node } :=
  page?_patch h _

theorem page?_withMeasures {ref : PageRef} {page : Page K I} (h : s.pager.page? ref = some page)
    (measures : List Int64) :
    (s.withMeasures ref measures).pager.page? ref = some { page with measures } := page?_patch h _

theorem page?_withNode_ne {ref r : PageRef} (h : ref ≠ r) (node : Node K I) :
    (s.withNode ref node).pager.page? r = s.pager.page? r := page?_patch_ne h _

theorem page?_withMeasures_ne {ref r : PageRef} (h : ref ≠ r) (measures : List Int64) :
    (s.withMeasures ref measures).pager.page? r = s.pager.page? r := page?_patch_ne h _

/-- The index with another node and other values in a page. -/
def draw (s : Index K I) (ref : PageRef) (node : Node K I) (measures : List Int64) : Index K I :=
  (s.withNode ref node).withMeasures ref measures

@[simp]
theorem tree_draw (s : Index K I) (ref : PageRef) (node : Node K I) (measures : List Int64) :
    (s.draw ref node measures).tree = s.tree := rfl

theorem redrawn_draw (s : Index K I) (ref : PageRef) (node : Node K I) (measures : List Int64) :
    Redrawn [ref] s (s.draw ref node measures) :=
  (redrawn_withNode s ref node).trans (redrawn_withMeasures _ ref measures)

theorem page?_draw {ref : PageRef} {page : Page K I} (h : s.pager.page? ref = some page)
    (hn : page.ref = ref) (node : Node K I) (measures : List Int64) :
    (s.draw ref node measures).pager.page? ref = some ⟨ref, measures, node⟩ := by
  have := page?_withMeasures (page?_withNode h node) measures
  rw [hn] at this
  exact this

theorem page?_draw_ne {ref r : PageRef} (h : ref ≠ r) (node : Node K I) (measures : List Int64) :
    (s.draw ref node measures).pager.page? r = s.pager.page? r :=
  (page?_withMeasures_ne h measures).trans (page?_withNode_ne h node)

theorem redrawn_tree (s : Index K I) (rs : List PageRef) {tree : Tree K I}
    (hc : tree.config = s.tree.config) (hm : tree.measures = s.tree.measures)
    (hk : tree.keyOf = s.tree.keyOf) : Redrawn rs s { s with tree } :=
  ⟨rfl, fun _ => rfl, fun _ _ => rfl, hc, hm, hk⟩

theorem held_runs {ref : PageRef} {page : Page K I} (h : s.pager.page? ref = some page) :
    Action.Runs (held ref) s page s := by
  unfold Action.Runs held
  rw [Action.bind_apply, Action.get_apply]
  dsimp only
  rw [h]
  rfl

theorem pinned_runs {pins : Pins} {ref : PageRef} {page : Page K I} (hp : ref ∈ pins)
    (h : s.pager.page? ref = some page) : Action.Runs (pinned pins ref) s page s := by
  unfold pinned
  rw [if_pos hp]
  exact held_runs h

theorem setNode_runs (s : Index K I) (ref : PageRef) (node : Node K I) :
    Action.Runs (setNode ref node) s () (s.withNode ref node) := rfl

theorem setMeasures_runs (s : Index K I) (ref : PageRef) (measures : List Int64) :
    Action.Runs (setMeasures ref measures) s () (s.withMeasures ref measures) := rfl

theorem modifyTree_runs (s : Index K I) (change : Tree K I → Tree K I) :
    Action.Runs (modifyTree change) s () { s with tree := change s.tree } := rfl

theorem addMeasures_runs {ref : PageRef} {page : Page K I} (h : s.pager.page? ref = some page)
    (values : List Int64) : Action.Runs (addMeasures ref values) s ()
      (s.withMeasures ref (s.tree.measures.add page.measures values)) :=
  (held_runs h).bind ((Action.runs_get s).bind (setMeasures_runs s ref _))

/-- Folding the values of pinned pages that are the tops of stored trees. -/
theorem foldPinned_runs {pins : Pins} {cs : List (Subtree K I)}
    (hp : ∀ c ∈ cs, c.ref ∈ pins) (h : ∀ c ∈ cs, s.pager.page? c.ref = some c.page) :
    Action.Runs (foldPinned pins (cs.map Subtree.ref)) s
      (s.tree.measures.fold (cs.map Subtree.measures)) s := by
  have hpages : Action.Runs ((cs.map Subtree.ref).mapM (pinned (K := K) (I := I) pins)) s
      (cs.map Subtree.page) s :=
    Action.runs_mapM fun c hc => pinned_runs (hp c hc) (h c hc)
  have hm : (cs.map Subtree.page).map Page.measures = cs.map Subtree.measures := by
    rw [List.map_map]
    exact List.map_congr_left fun c _ => c.measures_page
  rw [← hm]
  exact hpages.bind ((Action.runs_get s).bind (Action.runs_pure _ s))

theorem paging_runs {α : Type} {x : Paging K I α} {a : α} {pager : Pager K I}
    (h : Action.Runs x s.pager a pager) : Action.Runs (paging x) s a { s with pager } :=
  Action.Runs.zoom h

theorem paging_fails {α : Type} {x : Paging K I α} {e : IndexError} {pager : Pager K I}
    (h : Action.Fails x s.pager e pager) : Action.Fails (paging x) s e { s with pager } :=
  Action.Fails.zoom h

end Index

end PagedIndex
