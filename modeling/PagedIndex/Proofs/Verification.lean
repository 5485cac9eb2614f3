import PagedIndex.Proofs.Serving
import PagedIndex.Proofs.Subtree.Checks
import PagedIndex.Tree.Verify

/-!
# What verification decides

A tree passes exactly if it is sound, knows itself, and carries the right values (`verify_exact`), whatever the
store holds besides or instead. The walk through the pages goes both ways: from its answer a subtree can be read
off (`Exact.yields_checkPage`), and through a subtree that is in order it gets to the end (`reads_checkPage`).
-/

namespace PagedIndex

open PagedIndex.Action Service

/-- Every inner page has one more child than separators. -/
def Branching {K I : Type} (view : PageRef → Option (Page K I)) : Prop :=
  ∀ r page, view r = some page → page.isLeaf = false → page.children.length = page.size + 1

theorem branching_of_bindings {K I : Type} {pager : Pager K I} {store : Resident K I}
    (hs : pager.backing = .resident store) (h : ∀ binding ∈ store.pages.bindings,
      binding.2.isLeaf = false → binding.2.children.length = binding.2.size + 1) : Branching pager.page? := by
  intro r page hpage
  rw [Pager.page?, hs] at hpage
  exact h (r, page) (Table.mem_of_get? hpage)

namespace Tree

variable {K I : Type} {tree : Tree K I} {ref : PageRef}

/-! ## What has been seen -/

/-- No leaf has been seen at another depth than `o`. -/
def Seen.Above (o : Nat) (seen : Seen) : Prop := ∀ o', seen.depth = some o' → o' = o

/-- What the check of the trees `ts`, whose tops lie at `depth`, adds to what has been seen. -/
structure Counted (depth : Nat) (seen : Seen) (ts : List (Subtree K I)) (out : Nat × Seen) : Prop where
  items : out.1 = (ts.flatMap Subtree.entries).length
  leaves : out.2.leaves = seen.leaves ++ (ts.flatMap Subtree.leaves).map Prod.fst
  level : ∀ n ∈ ts.flatMap Subtree.depths, out.2.depth = some (depth + n)
  kept : ∀ o, seen.depth = some o → out.2.depth = some o

theorem Counted.cons {depth n m : Nat} {seen seen₁ seen₂ : Seen} {t : Subtree K I} {ts : List (Subtree K I)}
    (h : Counted depth seen [t] (n, seen₁)) (hs : Counted depth seen₁ ts (m, seen₂)) :
    Counted depth seen (t :: ts) (n + m, seen₂) := by
  obtain ⟨rfl, hleaves, hlevel, hkept⟩ := h
  obtain ⟨rfl, hleaves', hlevel', hkept'⟩ := hs
  refine ⟨?_, ?_, fun k hk => ?_, fun o ho => hkept' o (hkept o ho)⟩
  · simp
  · rw [hleaves', hleaves]
    simp
  · rw [List.flatMap_cons, List.mem_append] at hk
    rcases hk with hk | hk
    · exact hkept' _ (hlevel k (by simpa using hk))
    · exact hlevel' k hk

theorem counted_leaf {depth : Nat} {seen : Seen} (hdepth : ∀ o, seen.depth = some o → depth = o) (r : PageRef)
    (m : List Int64) (l : Leaf K I) :
    Counted depth seen [.leaf r m l] (l.size, { depth := some depth, leaves := seen.leaves ++ [r] }) := by
  refine ⟨?_, ?_, fun n hn => ?_, fun o ho => congrArg some (hdepth o ho)⟩
  · rw [List.flatMap_singleton, Subtree.entries_leaf]
    rfl
  · rw [List.flatMap_singleton, Subtree.leaves_leaf]
    rfl
  · rw [List.flatMap_singleton, Subtree.depths_leaf, List.mem_singleton] at hn
    rw [hn]
    rfl

theorem Counted.inner {depth : Nat} {seen : Seen} {cs : List (Subtree K I)} {out : Nat × Seen}
    (h : Counted (depth + 1) seen cs out) (r : PageRef) (m : List Int64) (ks : List K) :
    Counted depth seen [.inner r m ks cs] out := by
  refine ⟨?_, ?_, fun n hn => ?_, h.kept⟩
  · rw [List.flatMap_singleton, Subtree.entries_inner]
    exact h.items
  · rw [List.flatMap_singleton, Subtree.leaves_inner]
    exact h.leaves
  · rw [List.flatMap_singleton, Subtree.depths_inner, List.mem_map] at hn
    obtain ⟨n, hn, rfl⟩ := hn
    rw [h.level n hn]
    congr 1
    omega

/-- The leaves of a tree that was counted lie at one depth. -/
theorem Counted.level_eq {depth : Nat} {seen : Seen} {t : Subtree K I} {out : Nat × Seen}
    (h : Counted depth seen [t] out) : ∃ d, ∀ n ∈ t.depths, n = d := by
  refine ⟨out.2.depth.getD 0 - depth, fun n hn => ?_⟩
  rw [h.level n (by simpa using hn), Option.getD_some]
  omega

/-- Pages that were handed out under the names of some trees carry the values of these. -/
theorem measures_of_handed {view : PageRef → Option (Page K I)} {cs : List (Subtree K I)} {pages : List (Page K I)}
    (hst : ∀ c ∈ cs, c.StoredIn view) (h : List.Forall₂ (fun r page => view r = some page) (cs.map Subtree.ref) pages) :
    pages.map (·.measures) = cs.map Subtree.measures := by
  induction cs generalizing pages with
  | nil =>
    cases h
    rfl
  | cons c cs ih =>
    cases h with
    | cons hpage hpages =>
      obtain rfl := Option.some.inj ((hst c List.mem_cons_self).top.symm.trans hpage)
      rw [List.map_cons, List.map_cons, ih (fun x hx => hst x (List.mem_cons_of_mem c hx)) hpages,
        Subtree.measures_page]

/-! ## The checks of one page -/

theorem settles_demand {page : PageRef} {sound : Bool} {flaw : Flaw} :
    Settles (demand page sound flaw : Paging K I Unit) (sound = true) () := by
  cases sound with
  | true => exact settles_pure.congr (by simp)
  | false => exact settles_fail (by simp)

theorem settles_checkSize {page : Page K I} : Settles (tree.checkSize ref page)
    (page.ref = ref ∧ page.size ≤ tree.config.pageSize ∧ (ref = tree.root ∨ tree.config.minFill ≤ page.size)) () :=
  (settles_demand.bind (settles_demand.bind settles_demand)).congr (by simp)

theorem settles_checkDepth {depth : Nat} {seen : Seen} : Settles (checkDepth ref depth seen : Paging K I Seen)
    (∀ o, seen.depth = some o → depth = o) { depth := some depth, leaves := seen.leaves ++ [ref] } := by
  unfold checkDepth
  dsimp only
  split
  · rename_i others hdepth
    rw [hdepth]
    refine Settles.congr (settles_demand.bind settles_pure) ?_
    simp
  · rename_i hnone
    exact settles_pure.congr ⟨fun _ o ho => absurd ho (hnone o), fun _ => trivial⟩

variable [IndexKey K] {lower upper : Option K}

theorem inRange_iff {key : K} : inRange lower upper key = true ↔ InRange lower upper key := by
  unfold inRange InRange
  rw [Bool.and_eq_true]
  refine and_congr ?_ ?_
  · cases lower <;> simp [AtLeast]
  · cases upper <;> simp [Under, Ordering.isLT_iff_eq_lt]

section

variable [Std.TransOrd K]

theorem ascends_iff {keys : List K} : ascends keys = true ↔ Increasing keys := by
  unfold Increasing
  induction keys with
  | nil => simp [ascends]
  | cons a keys ih =>
    cases keys with
    | nil => simp [ascends]
    | cons b rest =>
      rw [ascends, Bool.and_eq_true, ih, Ordering.isLT_iff_eq_lt, List.pairwise_cons (a := a)]
      refine and_congr_left fun hrest => ⟨fun hab x hx => ?_, fun h => h b List.mem_cons_self⟩
      rcases List.mem_cons.mp hx with rfl | hx
      · exact hab
      · exact Std.TransCmp.lt_trans hab ((List.pairwise_cons.mp hrest).1 x hx)

theorem settles_checkEntries {measures : List Int64} {leaf : Leaf K I} :
    Settles (tree.checkEntries ref measures leaf lower upper) (Increasing leaf.keys
      ∧ (∀ k ∈ leaf.keys, InRange lower upper k) ∧ (∀ e ∈ leaf.entries, compare (tree.keyOf e.2) e.1 = .eq)
      ∧ tree.measures.ofItems leaf.items = measures) () := by
  refine (settles_demand.congr ascends_iff).bind ?_
  dsimp only
  split
  · rename_i key hfind
    refine settles_fail_bind fun h => ?_
    have hout := List.find?_some hfind
    rw [inRange_iff.mpr (h.1 key (List.mem_of_find?_eq_some hfind))] at hout
    exact absurd hout (by simp)
  · rename_i hnone
    have hrange : ∀ k ∈ leaf.keys, InRange lower upper k := fun k hk => by
      have := List.find?_eq_none.mp (Option.eq_none_iff_forall_ne_some.mpr hnone) k hk
      exact inRange_iff.mp (by simpa using this)
    refine Settles.congr (Q := _ ∧ _) ?_ (and_iff_right hrange).symm
    split
    · rename_i e hfind
      refine settles_fail_bind fun h => ?_
      have hout := List.find?_some hfind
      rw [h.1 e (List.mem_of_find?_eq_some hfind)] at hout
      exact absurd hout (by decide)
    · rename_i hnone
      have hkeyed : ∀ e ∈ leaf.entries, compare (tree.keyOf e.2) e.1 = .eq := fun e he => by
        have := List.find?_eq_none.mp (Option.eq_none_iff_forall_ne_some.mpr hnone) e he
        simpa using this
      exact (settles_demand.congr (by simp)).congr (and_iff_right hkeyed).symm

theorem settles_checkSeparators {inner : Inner K} :
    Settles (tree.checkSeparators ref inner lower upper : Paging K I Unit) ((ref = tree.root → inner.keys ≠ [])
      ∧ Increasing inner.keys ∧ ∀ k ∈ inner.keys, InRange lower upper k) () := by
  refine (settles_demand.congr (by simp [imp_iff_not_or])).bind ((settles_demand.congr ascends_iff).bind ?_)
  split
  · rename_i key hfind
    refine settles_fail fun h => ?_
    have hout := List.find?_some hfind
    rw [inRange_iff.mpr (h key (List.mem_of_find?_eq_some hfind))] at hout
    exact absurd hout (by simp)
  · rename_i hnone
    refine settles_pure.congr ⟨fun _ k hk => ?_, fun _ => trivial⟩
    have := List.find?_eq_none.mp (Option.eq_none_iff_forall_ne_some.mpr hnone) k hk
    exact inRange_iff.mp (by simpa using this)

end

/-! ## The children of a page -/

variable [Codec I] {srv : Service K I} {check : PageRef → Option K → Option K → Seen → Paging K I (Nat × Seen)}
  {depth : Nat}

theorem reads_foldResolved {cs : List (Subtree K I)} (hst : ∀ c ∈ cs, c.StoredIn srv.view) :
    srv.Reads (tree.foldResolved (cs.map Subtree.ref)) (· = tree.measures.fold (cs.map Subtree.measures)) := by
  refine (reads_mapM (P := fun r page => srv.view r = some page) fun r hr => ?_).bind fun pages hpages => ?_
  · obtain ⟨c, hc, rfl⟩ := List.mem_map.mp hr
    exact (reads_top (hst c hc)).mono fun page hpage => hpage ▸ (hst c hc).top
  · exact reads_pure (congrArg tree.measures.fold (measures_of_handed hst hpages))

theorem yields_foldResolved (hx : srv.Exact) (refs : List PageRef) : srv.Yields (tree.foldResolved refs) fun values =>
    ∀ cs : List (Subtree K I), cs.map Subtree.ref = refs → (∀ c ∈ cs, c.StoredIn srv.view) →
      values = tree.measures.fold (cs.map Subtree.measures) := by
  refine (yields_mapM fun r _ => hx.yields_resolve r).bind fun pages hpages => ?_
  refine yields_pure ?_
  rintro cs rfl hst
  exact congrArg tree.measures.fold (measures_of_handed hst hpages)

theorem yields_checkChildren (hcheck : ∀ ref lower upper seen, srv.Yields (check ref lower upper seen) fun out =>
      ∃ t : Subtree K I, t.ref = ref ∧ Subtree.Checks srv.view tree lower upper t ∧ Counted depth seen [t] out)
    {keys : List K} {children : List PageRef} (hl : children.length = keys.length + 1) (seen : Seen) :
    srv.Yields (checkChildren check upper lower keys children seen) fun out =>
      ∃ cs : List (Subtree K I), cs.map Subtree.ref = children ∧ Counted depth seen cs out
        ∧ ∀ i c, cs[i]? = some c →
          Subtree.Checks srv.view tree (lowerAt lower keys i) (keys[i]?.or upper) c := by
  induction keys generalizing lower children seen with
  | nil =>
    obtain ⟨child, rfl⟩ := List.length_eq_one_iff.mp hl
    refine (hcheck child lower upper seen).bind fun out hout => ?_
    obtain ⟨t, rfl, ht, hcounted⟩ := hout
    refine yields_pure ⟨[t], rfl, hcounted, fun i c hc => ?_⟩
    cases i with
    | zero => exact Option.some.inj hc ▸ ht
    | succ i => exact absurd hc (by simp)
  | cons key keys ih =>
    cases children with
    | nil => exact absurd hl (by simp)
    | cons child children =>
      refine (hcheck child lower (some key) seen).bind fun out hout => ?_
      obtain ⟨t, rfl, ht, hcounted⟩ := hout
      refine (ih (by simpa using hl) out.2).bind fun rest hrest => ?_
      obtain ⟨cs, rfl, hcounted', hcs⟩ := hrest
      refine yields_pure ⟨t :: cs, rfl, hcounted.cons hcounted', fun i c hc => ?_⟩
      cases i with
      | zero => exact Option.some.inj hc ▸ ht
      | succ i =>
        rw [Subtree.lowerAt_cons]
        exact hcs i c hc

theorem reads_checkChildren {o : Nat} {cs : List (Subtree K I)} {keys : List K} (hl : cs.length = keys.length + 1)
    (hcheck : ∀ i c, cs[i]? = some c → ∀ seen : Seen, seen.Above o →
      srv.Reads (check c.ref (lowerAt lower keys i) (keys[i]?.or upper) seen) fun out =>
        Counted depth seen [c] out ∧ out.2.Above o) {seen : Seen} (hseen : seen.Above o) :
    srv.Reads (checkChildren check upper lower keys (cs.map Subtree.ref) seen) fun out =>
      Counted depth seen cs out ∧ out.2.Above o := by
  induction keys generalizing lower cs seen with
  | nil =>
    obtain ⟨c, rfl⟩ := List.length_eq_one_iff.mp hl
    exact (hcheck 0 c rfl seen hseen).bind fun _ hout => reads_pure hout
  | cons key keys ih =>
    cases cs with
    | nil => exact absurd hl (by simp)
    | cons c cs =>
      refine (hcheck 0 c rfl seen hseen).bind fun out hout => ?_
      obtain ⟨hcounted, habove⟩ := hout
      have hrest : ∀ i c', cs[i]? = some c' → ∀ seen : Seen, seen.Above o →
          srv.Reads (check c'.ref (lowerAt (some key) keys i) (keys[i]?.or upper) seen) fun out =>
            Counted depth seen [c'] out ∧ out.2.Above o := by
        intro i c' hc'
        rw [← Subtree.lowerAt_cons]
        exact hcheck (i + 1) c' hc'
      refine (ih (by simpa using hl) hrest habove).bind fun rest hrest => ?_
      exact reads_pure ⟨hcounted.cons hrest.1, hrest.2⟩

/-! ## The chain of leaves -/

/-- The chain from `next` on leads through leaves exactly if they are linked from there on. -/
theorem yields_checkChain (hx : srv.Exact) {leaves : List (PageRef × Leaf K I)}
    (hst : ∀ leaf ∈ leaves, ∃ m, srv.view leaf.1 = some ⟨leaf.1, m, .leaf leaf.2⟩) (next : Option PageRef) :
    srv.Yields (checkChain (leaves.map Prod.fst) next) fun _ => next = firstRef none leaves ∧ Linked none leaves := by
  induction leaves generalizing next with
  | nil =>
    cases next with
    | none => exact yields_pure ⟨rfl, trivial⟩
    | some extra => exact yields_throw
  | cons leaf leaves ih =>
    obtain ⟨⟨m, hleaf⟩, hrest⟩ := List.forall_mem_cons.mp hst
    refine (yields_of_settles settles_demand).bind fun _ hnext => ?_
    refine (hx.yields_resolve leaf.1).bind fun page hpage => ?_
    obtain rfl := Option.some.inj (hleaf.symm.trans hpage)
    refine (yields_ofExcept (Q := (· = leaf.2)) fun l hl => (Except.ok.inj hl).symm).bind fun l hl => ?_
    subst hl
    refine (ih hrest leaf.2.right).mono fun _ hlinked => ?_
    exact ⟨beq_iff_eq.mp hnext.1, hlinked⟩

theorem reads_checkChain {leaves : List (PageRef × Leaf K I)}
    (hst : ∀ leaf ∈ leaves, ∃ m, srv.view leaf.1 = some ⟨leaf.1, m, .leaf leaf.2⟩) (h : Linked none leaves) :
    srv.Reads (checkChain (leaves.map Prod.fst) (firstRef none leaves)) fun _ => True := by
  induction leaves with
  | nil => exact reads_pure trivial
  | cons leaf leaves ih =>
    obtain ⟨⟨m, hleaf⟩, hrest⟩ := List.forall_mem_cons.mp hst
    obtain ⟨hright, hlinked⟩ := h
    refine (reads_of_settles settles_demand (by simp [firstRef])).bind fun _ _ => ?_
    refine (reads_resolve hleaf).bind_eq ?_
    refine (reads_ofExcept rfl).bind_eq ?_
    rw [hright]
    exact ih hrest hlinked

theorem yields_firstLeaf (hx : srv.Exact) : srv.Yields tree.firstLeaf fun _ => True := by
  have hfirst : ∀ ref, srv.Yields (firstChild? ref : Paging K I _) fun _ => True := by
    intro ref
    refine (hx.yields_resolve ref).bind fun page _ => ?_
    split
    · exact yields_pure trivial
    · exact (yields_orAbort (Q := fun _ => True) fun _ _ => trivial).bind fun _ _ => yields_pure trivial
  have hdescend : ∀ limit ref, srv.Yields (descendFirst limit ref : Paging K I _) fun _ => True := by
    intro limit
    induction limit with
    | zero => exact fun _ => yields_throw
    | succ limit ih =>
      intro ref
      refine (hfirst ref).bind fun child _ => ?_
      cases child with
      | none => exact yields_pure trivial
      | some child => exact (ih child).bind fun _ _ => yields_pure trivial
  refine yields_get.bind fun pager _ => (hdescend _ _).bind fun out _ => ?_
  exact (hx.yields_resolve out.1).mono fun _ _ => trivial

/-! ## The pages -/

variable [Std.TransOrd K]

/-- The check of a page goes through only above a subtree that passes, and counts it. -/
theorem yields_checkPage (hx : srv.Exact) (hb : Branching srv.view) (limit depth : Nat) (ref : PageRef)
    (lower upper : Option K) (seen : Seen) :
    srv.Yields (tree.checkPage limit depth ref lower upper seen) fun out =>
      ∃ t : Subtree K I, t.ref = ref ∧ Subtree.Checks srv.view tree lower upper t ∧ Counted depth seen [t] out := by
  induction limit generalizing depth ref lower upper seen with
  | zero => exact yields_throw
  | succ limit ih =>
    refine (hx.yields_resolve ref).bind fun page hpage => ?_
    obtain ⟨name, m, node⟩ := page
    refine (yields_of_settles settles_checkSize).bind fun _ hsize => ?_
    obtain ⟨⟨rfl, hsize⟩, -⟩ := hsize
    cases node with
    | leaf l =>
      refine (yields_of_settles settles_checkEntries).bind fun _ hentries => ?_
      refine (yields_of_settles settles_checkDepth).bind fun seen' hseen => ?_
      obtain ⟨hdepth, rfl⟩ := hseen
      exact yields_pure ⟨.leaf name m l, rfl, Subtree.checks_leaf.mpr ⟨hpage, hsize, hentries.1⟩,
        counted_leaf hdepth name m l⟩
    | inner inner =>
      obtain ⟨ks, children⟩ := inner
      refine (yields_of_settles settles_checkSeparators).bind fun _ hseparators => ?_
      have hl : children.length = ks.length + 1 := hb name _ hpage rfl
      refine (yields_foldResolved hx children).bind fun values hvalues => ?_
      refine (yields_of_settles settles_demand).bind fun _ hdemand => ?_
      refine (yields_checkChildren (ih (depth + 1)) hl seen).mono fun out hout => ?_
      obtain ⟨cs, rfl, hcounted, hcs⟩ := hout
      rw [List.length_map] at hl
      -- the values were folded before the children were known to be trees
      have hst : ∀ c ∈ cs, c.StoredIn srv.view := by
        intro c hc
        obtain ⟨i, hi⟩ := List.mem_iff_getElem?.mp hc
        exact (hcs i c hi).stored
      have hm : tree.measures.fold (cs.map Subtree.measures) = m := by
        rw [← hvalues cs rfl hst]
        exact beq_iff_eq.mp hdemand.1
      exact ⟨.inner name m ks cs, rfl, (Subtree.checks_inner hl).mpr ⟨hpage, hsize, hseparators.1, hm, hcs⟩,
        hcounted.inner name m ks⟩

/-- The check of a subtree that passes goes through. -/
theorem reads_checkPage {pageSize d limit depth : Nat} {t : Subtree K I} (hreg : t.Regular pageSize d) (hd : d < limit)
    (h : Subtree.Checks srv.view tree lower upper t) {seen : Seen} (hseen : seen.Above (depth + d)) :
    srv.Reads (tree.checkPage limit depth t.ref lower upper seen) fun out =>
      Counted depth seen [t] out ∧ out.2.Above (depth + d) := by
  induction hreg generalizing limit depth lower upper seen with
  | @leaf r m l =>
    obtain ⟨limit, rfl⟩ := Nat.exists_eq_add_of_lt hd
    obtain ⟨hst, hsize, hentries⟩ := Subtree.checks_leaf.mp h
    rw [Nat.zero_add, checkPage]
    refine (reads_resolve hst).bind_eq ?_
    refine (reads_of_settles settles_checkSize (by exact ⟨rfl, hsize⟩)).bind fun _ _ => ?_
    refine (reads_of_settles settles_checkEntries hentries).bind fun _ _ => ?_
    have hdepth : ∀ o, seen.depth = some o → depth = o := fun o ho => (hseen o ho).symm
    refine (reads_of_settles settles_checkDepth hdepth).bind fun seen' hseen' => ?_
    subst hseen'
    exact reads_pure ⟨counted_leaf hdepth r m l, fun o ho => (Option.some.inj ho).symm⟩
  | @inner d r m ks cs hl hreg hf ih =>
    obtain ⟨limit, rfl⟩ : ∃ n, limit = n + 1 := ⟨limit - 1, by omega⟩
    obtain ⟨hst, hsize, hseparators, hm, hcs⟩ := (Subtree.checks_inner hl).mp h
    rw [checkPage]
    refine (reads_resolve hst).bind_eq ?_
    refine (reads_of_settles settles_checkSize (by exact ⟨rfl, hsize⟩)).bind fun _ _ => ?_
    refine (reads_of_settles settles_checkSeparators hseparators).bind fun _ _ => ?_
    refine (reads_foldResolved fun c hc => h.stored.child hc).bind fun values hvalues => ?_
    refine (reads_of_settles settles_demand (by rw [hvalues, hm]; exact beq_self_eq_true m)).bind fun _ _ => ?_
    -- the leaves lie as deep for the children as for the page
    rw [show depth + (d + 1) = depth + 1 + d by omega] at hseen ⊢
    have hcheck : ∀ i c, cs[i]? = some c → ∀ seen : Seen, seen.Above (depth + 1 + d) →
        srv.Reads (tree.checkPage limit (depth + 1) c.ref (lowerAt lower ks i) (ks[i]?.or upper) seen) fun out =>
          Counted (depth + 1) seen [c] out ∧ out.2.Above (depth + 1 + d) :=
      fun i c hc seen hseen => ih c (List.mem_of_getElem? hc) (by omega) (hcs i c hc) hseen
    exact (reads_checkChildren hl hcheck hseen).mono fun out hout => ⟨hout.1.inner r m ks, hout.2⟩

/-! ## The whole tree -/

theorem yields_verify (hx : srv.Exact) (hb : Branching srv.view) (hsize : 4 ≤ tree.config.pageSize) :
    srv.Yields tree.verify fun _ => ∃ t, tree.Matches srv.view t ∧ t.Measured tree.measures := by
  refine yields_get.bind fun pager _ => ?_
  refine (yields_checkPage hx hb _ _ _ _ _ _).bind fun out hout => ?_
  obtain ⟨t, href, hchecks, hcounted⟩ := hout
  obtain ⟨items, seen⟩ := out
  have hitems : items = t.entries.length := by simpa using hcounted.items
  have hleaves : seen.leaves = t.leaves.map Prod.fst := by simpa using hcounted.leaves
  have hlevel := hcounted.level_eq
  have hnodes : ∀ leaf ∈ t.leaves, ∃ m, srv.view leaf.1 = some ⟨leaf.1, m, .leaf leaf.2⟩ := by
    intro leaf hleaf
    obtain ⟨m, hm⟩ := Subtree.mem_leaves_iff.mp hleaf
    exact ⟨m, hchecks.stored _ hm⟩
  refine (yields_of_settles settles_demand).bind fun _ hlen => ?_
  refine (yields_of_settles settles_demand).bind fun _ hlast => ?_
  refine (yields_firstLeaf hx).bind fun first _ => ?_
  rw [hleaves]
  refine (yields_checkChain hx hnodes _).mono fun _ hchain => ?_
  -- the pages that passed one by one, their level and their chain are all that soundness asks for
  obtain ⟨hst, hsound, hkeyed, hm⟩ := (Subtree.checks_iff_sound hsize href).mp ⟨hchecks, hlevel, hchain.2⟩
  obtain ⟨⟨d, hwhole⟩, -⟩ := (Subtree.sound_iff (by omega)).mp hsound
  refine ⟨t, ⟨href, hst, hsound, ?_, hkeyed, ?_⟩, hm⟩
  · have hlast := beq_iff_eq.mp hlast.1
    rw [hleaves, List.getLast?_map, List.getLast?_eq_some_getLast hwhole.regular.leaves_ne_nil] at hlast
    rw [List.getLast?_eq_some_getLast hwhole.regular.leaves_ne_nil, ← hlast]
    rfl
  · rw [← hitems]
    exact (beq_iff_eq.mp hlen.1).symm

theorem reads_verify {d : Nat} {t : Subtree K I} (h : srv.Carries tree d t) (ht : tree.Matches srv.view t)
    (hm : t.Measured tree.measures) (hsize : 4 ≤ tree.config.pageSize) : srv.Reads tree.verify fun _ => True := by
  obtain ⟨hchecks, -⟩ := (Subtree.checks_iff_sound hsize ht.root).mpr ⟨ht.stored, ht.sound, ht.keyed, hm⟩
  have hnodes : ∀ leaf ∈ t.leaves, ∃ m, srv.view leaf.1 = some ⟨leaf.1, m, .leaf leaf.2⟩ := by
    intro leaf hleaf
    obtain ⟨m, hm⟩ := Subtree.mem_leaves_iff.mp hleaf
    exact ⟨m, ht.stored _ hm⟩
  refine reads_get.bind fun pager hp => ?_
  have hd : d < 2 * pager.walkLimit := by
    have := h.depth
    have := srv.limit_le hp
    omega
  rw [h.root]
  refine (reads_checkPage h.whole.regular hd hchecks fun _ ho => absurd ho (by simp)).bind fun out hout => ?_
  obtain ⟨hcounted, -⟩ := hout
  obtain ⟨items, seen⟩ := out
  have hitems : items = t.entries.length := by simpa using hcounted.items
  have hleaves : seen.leaves = t.leaves.map Prod.fst := by simpa using hcounted.leaves
  refine (reads_of_settles settles_demand (by rw [hitems, ht.len]; exact beq_self_eq_true _)).bind fun _ _ => ?_
  have hlast : seen.leaves.getLast?.getD t.ref = tree.rightmost := by
    rw [hleaves, List.getLast?_map, ht.last]
    rfl
  refine (reads_of_settles settles_demand (by rw [hlast]; exact beq_self_eq_true _)).bind fun _ _ => ?_
  refine h.reads_firstLeaf.bind fun first hfirst => ?_
  obtain ⟨l, rest, hfirst, -⟩ := hfirst
  have hnext : some first.ref = firstRef none t.leaves := by rw [hfirst]; rfl
  rw [hleaves, hnext]
  exact reads_checkChain hnodes h.linked

end Tree

variable {K I : Type} [IndexKey K] [Codec I] [Std.TransOrd K] {tree : Tree K I} {pager : Pager K I}
  {view : PageRef → Option (Page K I)}

/-- Whatever pages there are, a tree passes exactly if they are a sound tree below its root, it knows its last leaf
and how many items it has, keys ascend across all leaves, every item is under its own key, and each page carries the
values of all items below it. -/
theorem verify_exact (h : pager.Shows view) (hsize : 4 ≤ tree.config.pageSize) (hb : Branching view) :
    tree.verify.answer pager = .ok () ↔ ∃ t, tree.Matches view t ∧ Increasing (t.entries.map Prod.fst)
      ∧ ∀ u ∈ t.subtrees, u.measures = tree.measures.map fun measure => measure.total u.items := by
  simp only [← MeasureSet.ofItems_eq_map]
  obtain ⟨srv, hands, hserves⟩ := h.exists_service
  obtain rfl := hands.pages
  constructor
  · intro hok
    obtain ⟨pager', hrun⟩ := Action.exists_runs_of_answer hok
    obtain ⟨-, t, ht, hm⟩ := Tree.yields_verify hands.exact hb hsize pager hserves () pager' hrun
    obtain ⟨d, hcarries⟩ := hands.carries hsize ht
    exact ⟨t, ht, Subtree.increasing_entries hcarries.ascending, hm⟩
  · rintro ⟨t, ht, -, hm⟩
    obtain ⟨d, hcarries⟩ := hands.carries hsize ht
    obtain ⟨_, pager', hrun, -, -⟩ := (Tree.reads_verify hcarries ht hm hsize).runs hands.wide hserves
    exact hrun.answer_eq

/-- Two children that are one and the same leaf. -/
def Index.overSharedLeaf : Index UInt64 UInt64 where
  tree := { config := { pageSize := 4 }, measures := [], keyOf := id, root := ⟨1⟩, rightmost := ⟨0⟩, len := 4 }
  pager := .ofNodes [(.leaf ⟨[(1, 1), (2, 2)], none⟩, []), (.inner ⟨[3], [⟨0⟩, ⟨0⟩]⟩, [])] ⟨4, false, ⟨1⟩, ⟨0⟩, 4, 0⟩

/-- Two leaves below a root pass, with the values that the root has. A leaf that is below the root twice does not, so
there is no sound tree. -/
theorem verify_twoLeaves : Index.overTwoLeaves.tree.verify.answer Index.overTwoLeaves.pager = .ok ()
    ∧ Index.overTwoLeaves.tree.measureValues.answer Index.overTwoLeaves.pager = .ok [4, 10, 1, 4]
    ∧ ¬ ∃ t, Index.overSharedLeaf.tree.Matches Index.overSharedLeaf.pager.page? t ∧ Increasing (t.entries.map Prod.fst)
      ∧ ∀ u ∈ t.subtrees, u.measures = Index.overSharedLeaf.tree.measures.map fun measure => measure.total u.items := by
  refine ⟨?_, by with_unfolding_all rfl, ?_⟩
  · refine (verify_exact (Index.ready_overTwoLeaves.shows (by decide) rfl) (by decide) ?_).mpr
      ⟨Index.twoLeaves, Index.matches_iff.mp Index.matches_twoLeaves, ?_, ?_⟩
    · exact branching_of_bindings rfl (by decide)
    · simp [Index.twoLeaves, Subtree.entries_inner, Subtree.entries_leaf, Increasing]
      decide
    · intro u hu
      rw [Index.measured_twoLeaves u hu, MeasureSet.ofItems_eq_map]
      rfl
  · have hready : Index.overSharedLeaf.pager.Ready := (Pager.ready_ofNodes (by decide) _).1
    refine (verify_exact (hready.shows (by decide) rfl) (by decide) ?_).not.mp ?_
    · exact branching_of_bindings rfl (by decide)
    · decide +kernel

end PagedIndex
