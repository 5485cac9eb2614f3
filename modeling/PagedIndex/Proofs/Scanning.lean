import PagedIndex.Proofs.Seeking
import PagedIndex.Tree.Scan

/-!
# What scans hand out

`Scan.Pending` says which entries are left of a scan. Taking the next one out leaves the others
(`Service.Carries.next_cases`), and so a scan along a ray hands out the entries on that ray one after the other and
then ends (`Service.Carries.reads_take`). An ascending scan knows the next leaf by its name. A descending one knows
it only as the leaf in front of the one that starts with a key, and finds it because that key is still there.
-/

namespace PagedIndex

variable {K I : Type}

/-! ## The rest of a scan -/

/-- The entries that a scan over the tree `t` has still to hand out: those it holds, and those of the leaves that
are still to come. -/
inductive Scan.Pending (t : Subtree K I) : Scan K I → List (K × I) → Prop
  | linked {front rest : List (PageRef × Leaf K I)} {r : PageRef} {l : Leaf K I} {buffer : List (K × I)} :
    t.leaves = front ++ (r, l) :: rest → front ≠ [] →
    Pending t ⟨.ascending, buffer, .linked r⟩ (buffer ++ entriesIn ((r, l) :: rest))
  | before {front back : List (PageRef × Leaf K I)} {r : PageRef} {l : Leaf K I} {buffer es : List (K × I)}
    {e : K × I} : t.leaves = front ++ (r, l) :: back → l.entries = e :: es →
    Pending t ⟨.descending, buffer, .before e.1⟩ (buffer ++ (entriesIn front).reverse)
  | finished {direction : Direction} {buffer : List (K × I)} : Pending t ⟨direction, buffer, .finished⟩ buffer

/-- What a scan that holds nothing more and has `es` left finds when it looks for the next leaf. -/
def Scan.Refilled (t : Subtree K I) (es : List (K × I)) : Option (Scan K I) → Prop
  | none => es = []
  | some scan => scan.buffer ≠ [] ∧ Pending t scan es

/-- An entry is taken out of those that the scan holds. -/
theorem Scan.Pending.taken {t : Subtree K I} {direction : Direction} {continuation : Continuation K} {e : K × I}
    {buffer es : List (K × I)} (h : Pending t ⟨direction, e :: buffer, continuation⟩ es) :
    ∃ rest, es = e :: rest ∧ Pending t ⟨direction, buffer, continuation⟩ rest := by
  cases h with
  | linked hleaves hne => exact ⟨_, List.cons_append, .linked hleaves hne⟩
  | before hleaves hfirst => exact ⟨_, List.cons_append, .before hleaves hfirst⟩
  | finished => exact ⟨_, rfl, .finished⟩

namespace Service

variable [IndexKey K] [Codec I] {srv : Service K I} {tree : Tree K I} {d : Nat} {t : Subtree K I}

open Scan (Pending Refilled)

/-- Behind a leaf, an ascending scan goes on with the leaves that follow. -/
theorem Carries.pending_ascending (h : srv.Carries tree d t) {front rest : List (PageRef × Leaf K I)} {r : PageRef}
    {l : Leaf K I} (hleaves : t.leaves = front ++ (r, l) :: rest) (buffer : List (K × I)) :
    Pending t ⟨.ascending, buffer, Scan.behind .ascending l⟩ (buffer ++ entriesIn rest) := by
  unfold Scan.behind
  dsimp only
  rw [h.right_eq hleaves]
  cases rest with
  | nil =>
    rw [entriesIn_nil, List.append_nil]
    exact .finished
  | cons next rest =>
    have hleaves' : t.leaves = (front ++ [(r, l)]) ++ (next.1, next.2) :: rest := by rw [hleaves]; simp
    exact .linked hleaves' (by simp)

/-- Behind a leaf, a descending scan goes on with the leaves in front of it. -/
theorem Carries.pending_descending (h : srv.Carries tree d t) {front back : List (PageRef × Leaf K I)} {r : PageRef}
    {l : Leaf K I} (hleaves : t.leaves = front ++ (r, l) :: back) (buffer : List (K × I)) :
    Pending t ⟨.descending, buffer, Scan.behind .descending l⟩ (buffer ++ (entriesIn front).reverse) := by
  unfold Scan.behind Leaf.firstKey?
  dsimp only
  cases hes : l.entries with
  | nil =>
    have hfront : front = [] := by
      by_contra hne
      exact h.whole.entries_ne_nil h.pageSize hleaves (.inl hne) hes
    rw [hfront, entriesIn_nil, List.reverse_nil, List.append_nil]
    exact .finished
  | cons e es => exact .before hleaves hes

/-- What is done with the page of a leaf. -/
theorem Carries.bind_leaf (h : srv.Carries tree d t) {front rest : List (PageRef × Leaf K I)} {r : PageRef}
    {l : Leaf K I} (hleaves : t.leaves = front ++ (r, l) :: rest) {β : Type} {f : Leaf K I → Paging K I β}
    {Q : β → Prop} (hf : srv.Reads (f l) Q) :
    srv.Reads (Pager.resolve r >>= fun page => Action.ofExcept page.asLeaf >>= f) Q := by
  have hmem : (r, l) ∈ t.leaves := by rw [hleaves]; simp
  exact (h.reads_leaf hmem).bind fun page hpage => (reads_ofExcept hpage.2).bind_eq hf

/-- The ascending scan at a cursor. -/
theorem Carries.reads_ofCursor_ascending (h : srv.Carries tree d t) {cursor : Cursor} {as bs : List (K × I)}
    (hcut : t.Cut cursor as bs) : srv.Reads (Scan.ofCursor cursor .ascending) (Pending t · bs) := by
  obtain @⟨front, rest, r, l, as, bs, hleaves, hl, -⟩ := hcut
  refine h.bind_leaf hleaves ?_
  have hpending := h.pending_ascending hleaves (l.entries.drop as.length)
  rw [hl, List.drop_left] at hpending
  dsimp only
  rw [hl, List.drop_left]
  exact reads_pure hpending

/-- The descending scan at a cursor. -/
theorem Carries.reads_ofCursor_descending (h : srv.Carries tree d t) {cursor : Cursor} {as bs : List (K × I)}
    {e : K × I} (hcut : t.Cut cursor as (e :: bs)) :
    srv.Reads (Scan.ofCursor cursor .descending) (Pending t · (as ++ [e]).reverse) := by
  generalize hbs : e :: bs = behind at hcut
  obtain @⟨front, rest, r, l, as, bs', hleaves, hl, hlast⟩ := hcut
  -- the entry at the cursor is in the leaf of the cursor
  obtain ⟨bs'', rfl⟩ : ∃ bs'', bs' = e :: bs'' := by
    cases bs' with
    | nil =>
      rw [hlast rfl] at hbs
      exact absurd hbs (by simp)
    | cons x xs => exact ⟨xs, by rw [(List.cons.inj hbs).1]⟩
  refine h.bind_leaf hleaves ?_
  have htake : l.entries.take (as.length + 1) = as ++ [e] := by
    rw [hl, List.append_cons, List.take_left' (by simp)]
  have hpending := h.pending_descending hleaves (as ++ [e]).reverse
  rw [← List.reverse_append, ← List.append_assoc] at hpending
  dsimp only
  rw [htake]
  exact reads_pure hpending

/-- The scan along a ray has the entries on the ray to hand out. -/
theorem Carries.reads_ofRay [Std.TransOrd K] (h : srv.Carries tree d t) (ray : Ray K) :
    srv.Reads (Scan.ofRay tree ray) (Pending t · (ray.along t.entries)) := by
  refine (h.reads_seekRay ray).bind fun found hfound => ?_
  have hnone : ∀ {es : List (K × I)}, (∀ e ∈ es, ray.covers e.1 = false) →
      (es.filter fun e => ray.covers e.1) = [] := by
    intro es hes
    rw [List.filter_eq_nil_iff]
    intro e he
    rw [hes e he]
    simp
  unfold Ray.along
  cases hfound with
  | @nowhere r l rest hdir hleaves hes =>
    rw [if_pos ⟨hdir, rfl⟩, hdir]
    dsimp only
    rw [hnone hes]
    exact reads_pure .finished
  | @ascending cursor as bs hdir hcut has hbs =>
    rw [if_neg (by rw [hdir]; simp), hdir]
    dsimp only
    rw [hcut.entries_eq, List.filter_append, hnone has, List.filter_eq_self.mpr hbs, List.nil_append]
    exact h.reads_ofCursor_ascending hcut
  | @descending cursor as bs e hdir hcut has he hbs =>
    rw [if_neg fun hout => ray.fitOf_ne_outside e hout.2, hdir]
    dsimp only
    rw [hcut.entries_eq, List.filter_append, List.filter_eq_self.mpr has, List.filter_cons_of_pos (by exact he),
      hnone hbs]
    exact h.reads_ofCursor_descending hcut

/-! ## The next leaf -/

/-- Where the leaf of an entry lies is where the way to its key ends. -/
theorem Carries.front_eq [Std.TransOrd K] (h : srv.Carries tree d t) {front back : List (PageRef × Leaf K I)}
    {r r' : PageRef} {l l' : Leaf K I} {e : K × I} (hleaves : t.leaves = front ++ (r, l) :: back)
    (he : e ∈ l.entries) {fs : List (Frame K I)} {m : List Int64} (ht : t = plugAll fs (.leaf r' m l'))
    (hway : Way tree.config.pageSize e.1 fs (.leaf r' m l')) : front = (Spine.low fs).flatMap Subtree.leaves := by
  obtain ⟨hleaves', hlow, hhigh⟩ := h.around ht hway
  have hself : compare e.1 e.1 = .eq := Std.ReflCmp.compare_self
  have hnot : compare e.1 e.1 ≠ .lt := by rw [hself]; simp
  have hmem : ∀ {leaves : List (PageRef × Leaf K I)}, (r, l) ∈ leaves → e ∈ entriesIn leaves :=
    fun hl => List.mem_flatMap.mpr ⟨_, hl, he⟩
  rcases List.append_eq_append_iff.mp (hleaves.symm.trans hleaves') with ⟨ls, hls, heq⟩ | ⟨ls, hls, heq⟩
  · cases ls with
    | nil => rw [hls, List.append_nil]
    | cons leaf ls =>
      obtain rfl : (r, l) = leaf := (List.cons.inj heq).1
      exact absurd (hlow e (hmem (by rw [hls]; simp))) hnot
  · cases ls with
    | nil => rw [hls, List.append_nil]
    | cons leaf ls => exact absurd (hhigh e (hmem (by rw [(List.cons.inj heq).2]; simp))) hnot

/-- The next leaf of a scan that holds nothing more has the next entries, if there are any. -/
theorem Carries.reads_nextLeaf? [Std.TransOrd K] (h : srv.Carries tree d t) {direction : Direction}
    {continuation : Continuation K} {es : List (K × I)} (hscan : Pending t ⟨direction, [], continuation⟩ es) :
    srv.Reads (Scan.nextLeaf? tree ⟨direction, [], continuation⟩) (Refilled t es) := by
  cases hscan with
  | finished => exact reads_pure rfl
  | @linked front rest r l _ hleaves hne =>
    refine h.bind_leaf hleaves ?_
    refine reads_pure ⟨h.whole.entries_ne_nil h.pageSize hleaves (.inl hne), ?_⟩
    rw [List.nil_append, entriesIn_cons]
    exact h.pending_ascending hleaves l.entries
  | @before front back r l _ es e hleaves hfirst =>
    refine Reads.bind (f := fun next => _) (Q := fun next =>
      next = none ∧ front = []
        ∨ ∃ page front' l', next = some page ∧ front = front' ++ [(page.ref, l')] ∧ page.asLeaf = .ok l')
      ?_ fun next hnext => ?_
    · refine (reads_locate h.stored h.root h.whole h.depth).bind fun out hout => ?_
      obtain ⟨fs, r', m, l', rfl, ht, hway⟩ := hout
      have hfront := h.front_eq hleaves (by rw [hfirst]; exact List.mem_cons_self) ht hway
      cases hu : Spine.neighbour fs with
      | none =>
        rw [Spine.neighbour_eq, List.getLast?_eq_none_iff] at hu
        rw [hu] at hfront
        exact reads_pure (.inl ⟨rfl, hfront⟩)
      | some u =>
        refine (h.reads_lastLeafBelow ht hway.fits hway.filled hu).bind fun page hpage => ?_
        obtain ⟨front', l', hlow, hleaf⟩ := hpage
        exact reads_pure (.inr ⟨page, front', l', rfl, hfront.trans hlow, hleaf⟩)
    · rcases hnext with ⟨rfl, rfl⟩ | ⟨page, front', l', rfl, rfl, hleaf⟩
      · exact reads_pure rfl
      · refine (reads_ofExcept hleaf).bind_eq ?_
        have hleaves' : t.leaves = front' ++ (page.ref, l') :: (r, l) :: back := by rw [hleaves]; simp
        refine reads_pure ⟨?_, ?_⟩
        · rw [ne_eq, List.reverse_eq_nil_iff]
          exact h.whole.entries_ne_nil h.pageSize hleaves' (.inr (by simp))
        · rw [List.nil_append, entriesIn_append, entriesIn_cons, entriesIn_nil, List.append_nil, List.reverse_append]
          exact h.pending_descending hleaves' l'.entries.reverse

/-! ## The next entries -/

variable [Std.TransOrd K]

/-- A call to a scan hands the first entry out that is left, or the scan is over: because nothing is left or because of
a refusal. -/
theorem Carries.next_cases (h : srv.Carries tree d t) {pager : Pager K I} (hp : srv.Serves pager) {scan : Scan K I}
    {es : List (K × I)} (hscan : Pending t scan es) :
    (∃ e rest scan' pager', es = e :: rest ∧ Action.Runs (scan.next tree) pager (some (.ok e), scan') pager'
        ∧ Pending t scan' rest ∧ srv.Serves pager')
      ∨ (∃ direction pager', es = [] ∧ Action.Runs (scan.next tree) pager (none, .nothing direction) pager'
        ∧ srv.Serves pager')
      ∨ ∃ e direction pager', Action.Runs (scan.next tree) pager (some (.error e), .nothing direction) pager'
        ∧ srv.Refuses e pager' := by
  obtain ⟨direction, buffer, continuation⟩ := scan
  have hpos := Nat.lt_of_lt_of_le h.depth (srv.limit_le hp)
  have hlimit : pager.walkLimit = pager.walkLimit - 1 + 1 := by omega
  have hnext : ∀ {outcome pager'},
      Action.Runs (Scan.advance tree (pager.walkLimit - 1 + 1) ⟨direction, buffer, continuation⟩) pager outcome pager' →
        Action.Runs (Scan.next tree ⟨direction, buffer, continuation⟩) pager outcome pager' := fun hrun =>
    (Action.runs_get pager).bind (by rwa [hlimit])
  cases buffer with
  | cons e buffer =>
    -- what the scan holds is handed out without any call to the pager
    obtain ⟨rest, rfl, hrest⟩ := hscan.taken
    exact .inl ⟨e, rest, _, pager, rfl, hnext (by rw [Scan.advance]; exact Action.runs_pure _ pager), hrest, hp⟩
  | nil =>
    rw [Scan.advance] at hnext
    case x_2 => simp
    rcases (h.reads_nextLeaf? hscan).runs_or_fails hp with
      ⟨found, pager', hrun, hp', hfound⟩ | ⟨e, pager', hfail, hrefuses⟩
    · cases found with
      | none =>
        exact .inr (.inl ⟨direction, pager', hfound, hnext (hrun.attempt.bind (Action.runs_pure _ pager')), hp'⟩)
      | some scan =>
        -- no leaf that is still to come is empty, so there is no need to look any further
        obtain ⟨direction', buffer, continuation'⟩ := scan
        obtain ⟨hne, hscan'⟩ := hfound
        obtain ⟨e, buffer, rfl⟩ := List.exists_cons_of_ne_nil hne
        obtain ⟨rest, rfl, hrest⟩ := hscan'.taken
        refine .inl ⟨e, rest, _, pager', rfl, hnext (hrun.attempt.bind ?_), hrest, hp'⟩
        dsimp only
        rw [Scan.advance]
        exact Action.runs_pure _ pager'
    · exact .inr (.inr
        ⟨e, direction, pager', hnext (hfail.attempt.bind (Action.runs_pure _ pager')), hrefuses⟩)

/-- Where nothing is refused, the next entry of a scan is the first one that is left of it. -/
theorem Carries.reads_next (h : srv.Carries tree d t) (hr : ∀ e pager, ¬ srv.Refuses e pager) {scan : Scan K I}
    {es : List (K × I)} (hscan : Pending t scan es) : srv.Reads (scan.next tree)
      fun out => out.1 = es.head?.map .ok ∧ Pending t out.2 es.tail := by
  intro pager hp
  rcases h.next_cases hp hscan with ⟨e, rest, scan', pager', rfl, hrun, hrest, hp'⟩
    | ⟨direction, pager', rfl, hrun, hp'⟩ | ⟨e, direction, pager', -, hrefuses⟩
  · rw [show scan.next tree pager = _ from hrun]
    exact ⟨hp', rfl, hrest⟩
  · rw [show scan.next tree pager = _ from hrun]
    exact ⟨hp', rfl, .finished⟩
  · exact absurd hrefuses (hr e pager')

/-- The next entries of a scan are the first ones that are left of it; fewer only if there are no more. -/
theorem Carries.reads_take (h : srv.Carries tree d t) (hr : ∀ e pager, ¬ srv.Refuses e pager) (count : Nat)
    {scan : Scan K I} {es : List (K × I)} (hscan : Pending t scan es) : srv.Reads (scan.take tree count)
      fun out => out.1 = (es.take count).map .ok ∧ Pending t out.2 (es.drop count) := by
  induction count generalizing scan es with
  | zero => exact reads_pure ⟨rfl, hscan⟩
  | succ count ih =>
    rw [Scan.take]
    refine (h.reads_next hr hscan).bind fun out hout => ?_
    obtain ⟨first, scan'⟩ := out
    obtain ⟨rfl, hscan'⟩ := hout
    cases es with
    | nil => exact reads_pure ⟨rfl, hscan'⟩
    | cons e es =>
      refine (ih hscan').bind fun out hout => ?_
      obtain ⟨outcomes, scan''⟩ := out
      obtain ⟨rfl, hscan''⟩ := hout
      exact reads_pure ⟨rfl, hscan''⟩

end Service

end PagedIndex
