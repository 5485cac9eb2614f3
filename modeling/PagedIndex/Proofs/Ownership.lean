import PagedIndex.Proofs.Index.Operations

/-!
# The pages that an index owns

An index owns the pages of its tree and there are no others: no page is lost, and none is named that is not there.
A run may be refused pages that it wants to look at, and pages that it wants to make, in any pattern. As long as it
may give pages up, the books balance after every operation (`Owns.keeps`): what was made is in the tree or was
given up again, and what left the tree was given up, once.
-/

namespace PagedIndex.Index

variable {K I : Type}

/-! ## Pages that are reached, and names that are mentioned -/

/-- The pages that one comes to from the root. -/
inductive Reached (s : Index K I) : PageRef → Prop
  | root : Reached s s.tree.root
  | child {r c : PageRef} {page : Page K I} : Reached s r → s.pager.page? r = some page → c ∈ page.children →
    Reached s c

/-- The names that stand anywhere: for the root, for the last leaf, for a child of a page, or for the leaf after a
leaf. -/
inductive Mentioned (s : Index K I) : PageRef → Prop
  | root : Mentioned s s.tree.root
  | rightmost : Mentioned s s.tree.rightmost
  | child {r c : PageRef} {page : Page K I} : s.pager.page? r = some page → c ∈ page.children → Mentioned s c
  | link {r next : PageRef} {page : Page K I} {leaf : Leaf K I} : s.pager.page? r = some page →
    page.node = .leaf leaf → leaf.right = some next → Mentioned s next

/-- The pages that are there are the ones that are reached, and no other page is mentioned. -/
structure Tidy (s : Index K I) : Prop where
  reached : ∀ r, (s.pager.page? r).isSome ↔ Reached s r
  mentioned : ∀ r, Mentioned s r → (s.pager.page? r).isSome

theorem Reached.mentioned {s : Index K I} {r : PageRef} (h : Reached s r) : Mentioned s r := by
  cases h with
  | root => exact .root
  | child _ hpage hc => exact .child hpage hc

/-- Below a page that is reached every page is. -/
theorem Reached.refs {s : Index K I} {t : Subtree K I} (h : Reached s t.ref) (hst : t.StoredIn s.pager.page?)
    {r : PageRef} (hr : r ∈ t.refs) : Reached s r := by
  induction t using Subtree.subtrees.induct with
  | case1 r' m l =>
    rw [Subtree.refs_leaf, List.mem_singleton] at hr
    exact hr ▸ h
  -- the page of an inner node lists the tops of the trees below it
  | case2 r' m ks cs ih =>
    rw [Subtree.refs_inner] at hr
    obtain rfl | hr := List.mem_cons.mp hr
    · exact h
    · obtain ⟨c, hc, hr⟩ := List.mem_flatMap.mp hr
      exact ih c hc (.child h hst.top (List.mem_map_of_mem hc)) (hst.child hc) hr

/-! ## The tree is all there is -/

section Owns

variable [Ord K] {s u : Index K I} {d d' : Nat} {t T : Subtree K I}

/-- The index holds the tree, and there is no page besides those of the tree. -/
structure Owns (s : Index K I) (d : Nat) (t : Subtree K I) : Prop extends Holds s d t where
  sole : ∀ r, (s.pager.page? r).isSome → r ∈ t.refs

/-- Every page that is there is the top of a part of the tree. -/
theorem Owns.exists_subtree (h : Owns s d t) {r : PageRef} {page : Page K I} (hpage : s.pager.page? r = some page) :
    ∃ x ∈ t.subtrees, x.page = page := by
  obtain ⟨x, hx, rfl⟩ := List.mem_map.mp (h.sole r (by rw [hpage]; rfl))
  exact ⟨x, hx, Option.some.inj ((h.stored x hx).symm.trans hpage)⟩

theorem Owns.tidy (h : Owns s d t) : Tidy s := by
  -- wherever a name stands, it is the name of a page of the tree
  have hmentioned : ∀ r, Mentioned s r → r ∈ t.refs := by
    intro r hr
    cases hr with
    | root => exact h.root ▸ t.ref_mem_refs
    | rightmost => exact t.leaves_sublist_refs.subset (lastRef_mem h.last)
    | child hpage hc =>
      obtain ⟨x, hx, rfl⟩ := h.exists_subtree hpage
      rw [Subtree.children_page] at hc
      obtain ⟨c, hchild, rfl⟩ := List.mem_map.mp hc
      cases x with
      | leaf => exact absurd hchild List.not_mem_nil
      | inner r m ks cs =>
        exact Subtree.mem_refs_of_mem (Subtree.mem_subtrees_trans
          (Subtree.mem_subtrees_inner.mpr (.inr ⟨c, hchild, c.mem_subtrees_self⟩)) hx)
    | link hpage hleaf hnext =>
      obtain ⟨x, hx, rfl⟩ := h.exists_subtree hpage
      cases x with
      | leaf r' m l =>
        cases hleaf
        exact t.leaves_sublist_refs.subset ((right_of_linked h.linked (Subtree.mem_leaves_iff.mpr ⟨m, hx⟩)
          hnext).resolve_right (by simp))
      | inner => cases hleaf
  refine ⟨fun r => ⟨fun hr => ?_, fun hr => h.isSome (hmentioned r hr.mentioned)⟩,
    fun r hr => h.isSome (hmentioned r hr)⟩
  have hroot : Reached s t.ref := h.root ▸ .root
  exact hroot.refs h.stored (h.sole r hr)

/-- The tree that the pages spell out afterwards has them all, if it has the pages that were made and not the ones
that were given up. -/
theorem Owns.turnover (h : Owns s d t) (hT : Holds u d' T) {made gone : List PageRef}
    (hturn : s.pager.Turnover made gone u.pager) (hperm : (T.refs ++ gone).Perm (t.refs ++ made)) : Owns u d' T := by
  refine ⟨hT, fun r hr => ?_⟩
  obtain ⟨hthere, hgone⟩ := (hturn.pages r).mp hr
  have hmem := hperm.mem_iff.mpr (List.mem_append.mpr (hthere.imp_left (h.sole r)))
  exact (List.mem_append.mp hmem).resolve_right hgone

/-! ## Books -/

/-- From `s` to `u` the pages `made` were made and the pages `gone` were given up, each of them by one call. -/
structure Balanced (made gone : List PageRef) (s u : Index K I) : Prop where
  turnover : s.pager.Turnover made gone u.pager
  calls : ∃ n k, s.pager.Called ⟨n, k, gone.length⟩ u.pager
    ∧ (s.pager.gate.create.answers k).count .granted = made.length
  /-- What was reached before and what was made is reached now or was given up. -/
  settled : ∀ r, Reached s r ∨ r ∈ made → Reached u r ∨ r ∈ gone
  forgotten : ∀ r ∈ gone, ¬ Mentioned u r

theorem Owns.balanced (h : Owns s d t) (hu : Owns u d' T) {made gone : List PageRef}
    (hturn : s.pager.Turnover made gone u.pager) {n k : Nat} (hcalled : s.pager.Called ⟨n, k, gone.length⟩ u.pager)
    (hcount : (s.pager.gate.create.answers k).count .granted = made.length) : Balanced made gone s u where
  turnover := hturn
  calls := ⟨n, k, hcalled, hcount⟩
  settled r hr := by
    rw [← h.tidy.reached] at hr
    by_cases hgone : r ∈ gone
    · exact .inr hgone
    · exact .inl ((hu.tidy.reached r).mp ((hturn.pages r).mpr ⟨hr, hgone⟩))
  forgotten r hr hmentioned := ((hturn.pages r).mp (hu.tidy.mentioned r hmentioned)).2 hr

/-- What becomes of the pages when an operation has answered. -/
inductive Upkeep (s u : Index K I) : Op K I → Answer I → Prop
  | added {item : I} {made : List PageRef} : Balanced made [] s u → Upkeep s u (.add item) (.ok none)
  | replaced {item old : I} : Balanced [] [] s u → Upkeep s u (.replace item) (.ok (some old))
  /-- The pages that are left over are given up. -/
  | removed {key : K} {item : I} {gone : List PageRef} : Balanced [] gone s u →
    Upkeep s u (.remove key) (.ok (some item))
  | absent {key : K} : Balanced [] [] s u → Upkeep s u (.remove key) (.ok none)
  /-- All pages that were made are given up again, and the others are as they were. -/
  | failed {op : Op K I} {e : IndexError} {made : List PageRef} : Balanced made made s u → u.tree = s.tree →
    (∀ r, u.pager.page? r = s.pager.page? r) → Upkeep s u op (.error (.failed e))
  /-- All pages are given up; after that a page is made, and it is the only one. -/
  | cleared {p : Pager K I} {page : Page K I} : Action.Runs Pager.clear s.pager () p → (∀ r, p.page? r = none) →
    Action.Runs (Pager.create (.leaf .empty) s.tree.measures.identity) p page u.pager →
    (∀ r, (u.pager.page? r).isSome ↔ r = page.ref) → Upkeep s u .clear (.ok none)

/-- Where nothing was refused to be given up, an operation that spares all pages fails without a trace. -/
theorem Owns.spared (h : Owns s d t) {calls : Calls} {q : Pager K I} (hspared : s.pager.Spared calls q)
    (hrelease : s.pager.gate.release.Grants calls.release) : ∃ made, Owns { s with pager := q } d t
      ∧ Balanced made made s { s with pager := q } ∧ ∀ r, q.page? r = s.pager.page? r := by
  obtain ⟨made, hlen, hcount, hturn, hpages⟩ := hspared.turnover hrelease
  have hu : Owns { s with pager := q } d t := h.turnover (h.toHolds.spared hspared) hturn (.refl _)
  have hcalled : s.pager.Called ⟨calls.resolve, calls.create, made.length⟩ q := hlen ▸ hspared.called
  exact ⟨made, hu, h.balanced hu hturn hcalled hcount, hpages⟩

end Owns

/-! ## One operation -/

/-- An operation and the gate that it meets. -/
structure Turn (K I : Type) where
  op : Op K I
  gate : Gate

/-- Pages may be given up, and an index may be cleared; to look at a page and to make one may be refused. -/
structure Turn.Lenient (turn : Turn K I) : Prop where
  release : ∀ n, turn.gate.release.Grants n
  clear : turn.op = .clear → turn.gate.clear.next.1 = .granted ∧ turn.gate.create.next.1 = .granted

/-- The index before the operation, behind the gate. -/
def Turn.before (turn : Turn K I) (s : Index K I) : Index K I :=
  { s with pager := { s.pager with gate := turn.gate } }

/-- The gate has no part in what an index owns. -/
theorem Owns.before [Ord K] {s : Index K I} {d : Nat} {t : Subtree K I} (h : Owns s d t) (turn : Turn K I) :
    Owns (turn.before s) d t :=
  ⟨h.toHolds.withPager (h.ready.behind turn.gate) fun _ _ => rfl, h.sole⟩

section Run

variable [IndexKey K] [Codec I]

/-- The index after the operation. -/
def Turn.after (turn : Turn K I) (s : Index K I) : Index K I := turn.op.perform.after (turn.before s)

/-- The index after a run. -/
def afterTurns : List (Turn K I) → Index K I → Index K I
  | [], s => s
  | turn :: turns, s => afterTurns turns (turn.after s)

/-- The numbers of pages do not run out in a run. They start again where the index is cleared. -/
def NumbersLast : List (Turn K I) → Index K I → Prop
  | [], _ => True
  | turn :: turns, s => s.pager.next.toNat + turn.op.pagesMade (turn.before s) ≤ 2 ^ 64 - 2
    ∧ NumbersLast turns (turn.after s)

instance NumbersLast.decidable : (turns : List (Turn K I)) → (s : Index K I) → Decidable (NumbersLast turns s)
  | [], _ => .isTrue trivial
  | turn :: turns, s => @instDecidableAnd _ _ _ (decidable turns (turn.after s))

theorem afterTurns_append (xs ys : List (Turn K I)) (s : Index K I) :
    afterTurns (xs ++ ys) s = afterTurns ys (afterTurns xs s) := by
  induction xs generalizing s with
  | nil => rfl
  | cons turn xs ih => exact ih (turn.after s)

theorem numbersLast_append {xs ys : List (Turn K I)} {s : Index K I} :
    NumbersLast (xs ++ ys) s ↔ NumbersLast xs s ∧ NumbersLast ys (afterTurns xs s) := by
  induction xs generalizing s with
  | nil => exact ⟨fun h => ⟨trivial, h⟩, fun h => h.2⟩
  | cons turn xs ih => rw [List.cons_append, NumbersLast, NumbersLast, ih, and_assoc, afterTurns]

variable [Std.TransOrd K] {s : Index K I} {d : Nat} {t : Subtree K I}

/-- The operation leaves an index that owns its pages, and the books balance. -/
def Keeps (s : Index K I) (op : Op K I) : Prop :=
  ∃ d T, Owns (op.perform.after s) d T ∧ Upkeep s (op.perform.after s) op (op.perform.answer s)

theorem Owns.keeps_add (h : Owns s d t) (hrelease : ∀ n, s.pager.gate.release.Grants n) {item : I}
    (hn : s.pager.next.toNat + s.pagesToAdd item ≤ 2 ^ 64 - 2) : Keeps s (.add item) := by
  rcases h.add_cases hn with
    ⟨T, d', n, u, hrun, hholds, -, hcalled, -, hgrants, -, -, -, -, news, hlen, hturn, hperm⟩ |
    ⟨e, calls, q, hfail, hspared, -⟩
  · -- what was made is what the tree has gained
    have hperform : Action.Runs (Op.perform (.add item)) s none u := hrun.bind (Action.runs_pure _ u)
    have hu : Owns u d' T := h.turnover hholds hturn (by rwa [List.append_nil])
    rw [Keeps, hperform.after_eq, hperform.answer_eq]
    exact ⟨d', T, hu, .added (h.balanced hu hturn hcalled (by rw [hgrants.count, hlen]))⟩
  · have hperform := hfail.bind fun _ => pure (none : Option I)
    obtain ⟨made, hu, hbalanced, hpages⟩ := h.spared hspared (hrelease _)
    rw [Keeps, Op.perform, hperform.after_eq, hperform.answer_eq]
    exact ⟨d, t, hu, .failed hbalanced rfl hpages⟩

theorem Owns.keeps_replace (h : Owns s d t) (hrelease : ∀ n, s.pager.gate.release.Grants n)
    (hn : s.pager.next.toNat ≤ 2 ^ 64 - 2) (item : I) : Keeps s (.replace item) := by
  rcases h.replace_cases hn item with
    ⟨T, n, u, present, hrun, hholds, -, hcalled, -, -, -, -, hlive, hperm⟩ | ⟨e, calls, q, hfail, hspared, -⟩
  · have hperform : Action.Runs (Op.perform (.replace item)) s (some present) u := hrun.bind (Action.runs_pure _ u)
    have hturn := (Pager.Grown.refl h.ready).turnover.congr hlive
    have hu : Owns u d T := h.turnover hholds hturn (by rwa [List.append_nil, List.append_nil])
    rw [Keeps, hperform.after_eq, hperform.answer_eq]
    exact ⟨d, T, hu, .replaced (h.balanced hu hturn hcalled rfl)⟩
  · have hperform := hfail.bind fun old => pure (some old)
    obtain ⟨made, hu, hbalanced, hpages⟩ := h.spared hspared (hrelease _)
    rw [Keeps, Op.perform, hperform.after_eq, hperform.answer_eq]
    exact ⟨d, t, hu, .failed hbalanced rfl hpages⟩

theorem Owns.keeps_remove (h : Owns s d t) (hrelease : ∀ n, s.pager.gate.release.Grants n)
    (hn : s.pager.next.toNat ≤ 2 ^ 64 - 2) (key : K) : Keeps s (.remove key) := by
  rcases h.remove_cases hn key with
    ⟨T, d', n, item, freed, u, hholds, -, hcalled, -, hperm, hpages, -, -, ⟨hgrants, hrun⟩ |
      ⟨i, _, hi, hbars, -⟩⟩ | ⟨n, q, hrun, hread, -⟩ | ⟨n, _, q, hfail, hbarred⟩
  · -- what the tree has lost is what was offered for release, and all of it is gone
    have hturn : s.pager.Turnover [] freed u.pager := by
      refine ⟨by simp, List.nodup_nil, (List.nodup_append.mp (hperm.nodup_iff.mpr h.nodup)).2.1, fun r hr => ?_,
        fun r => ?_⟩
      · exact .inl (h.isSome (hperm.subset (List.mem_append_right _ hr)))
      · rw [hpages, hgrants.mem_zip, or_iff_left List.not_mem_nil]
    have hu : Owns u d' T := h.turnover hholds hturn (by rwa [List.append_nil])
    rw [Keeps, Op.perform, hrun.after_eq, hrun.answer_eq]
    exact ⟨d', T, hu, .removed (h.balanced hu hturn hcalled rfl)⟩
  · -- only a page that cannot be given up would be left over
    exact absurd (hrelease _) (hbars.not_grants hi)
  · have hturn : s.pager.Turnover [] [] q :=
      (Pager.Grown.refl h.ready).turnover.congr fun r => by rw [hread.still.page?]
    have hu : Owns { s with pager := q } d t := h.turnover (h.toHolds.still hread.still) hturn (.refl _)
    rw [Keeps, Op.perform, hrun.after_eq, hrun.answer_eq]
    exact ⟨d, t, hu, .absent (h.balanced hu hturn hread.called rfl)⟩
  · obtain ⟨made, hu, hbalanced, hpages⟩ := h.spared (hbarred.spared h.ready) (hrelease _)
    rw [Keeps, Op.perform, hfail.after_eq, hfail.answer_eq]
    exact ⟨d, t, hu, .failed hbalanced rfl hpages⟩

omit [Std.TransOrd K] in
theorem Owns.keeps_clear (h : Owns s d t) (hclear : s.pager.gate.clear.next.1 = .granted)
    (hcreate : s.pager.gate.create.next.1 = .granted) : Keeps s .clear := by
  obtain ⟨r, p, u, hrun, hholds, -, hgone, hnone, hmade, hgrown, -⟩ := clear_runs h.toHolds hclear hcreate
  have hperform : Action.Runs (Op.perform .clear) s none u := hrun.bind (Action.runs_pure _ u)
  -- the numbers start again, so the new page may have the name of one that was there before, but of none that is
  have hpages : ∀ n, (u.pager.page? n).isSome ↔ n = r := by
    intro n
    rw [hgrown.turnover.pages, hnone]
    simp
  rw [Keeps, hperform.after_eq, hperform.answer_eq]
  refine ⟨0, _, ⟨hholds, fun n hn => ?_⟩, .cleared hgone hnone hmade hpages⟩
  rw [Subtree.refs_leaf]
  exact List.mem_singleton.mpr ((hpages n).mp hn)

/-- As long as pages may be given up, every operation leaves an index that owns its pages. -/
theorem Owns.keeps (h : Owns s d t) {turn : Turn K I} (hlenient : turn.Lenient)
    (hn : s.pager.next.toNat + turn.op.pagesMade (turn.before s) ≤ 2 ^ 64 - 2) : Keeps (turn.before s) turn.op := by
  obtain ⟨op, gate⟩ := turn
  obtain ⟨hrelease, hclear⟩ := hlenient
  have hbefore := h.before ⟨op, gate⟩
  have hn' : s.pager.next.toNat ≤ 2 ^ 64 - 2 := Nat.le_of_add_right_le hn
  cases op with
  | add item => exact hbefore.keeps_add hrelease hn
  | replace item => exact hbefore.keeps_replace hrelease hn' item
  | remove key => exact hbefore.keeps_remove hrelease hn' key
  | clear => exact hbefore.keeps_clear (hclear rfl).1 (hclear rfl).2

/-! ## Runs -/

/-- All along a run an index owns its pages. -/
theorem Owns.run (h : Owns s d t) {turns : List (Turn K I)} (hlenient : ∀ turn ∈ turns, turn.Lenient)
    (hn : NumbersLast turns s) : ∃ d' T, Owns (afterTurns turns s) d' T := by
  -- on the run; after each operation the index owns the pages of another tree
  induction turns generalizing s d t with
  | nil => exact ⟨d, t, h⟩
  | cons turn turns ih =>
    obtain ⟨d₁, T₁, h₁, -⟩ := h.keeps (hlenient turn List.mem_cons_self) hn.1
    exact ih h₁ (fun x hx => hlenient x (List.mem_cons_of_mem _ hx)) hn.2

/-- From a new index on, whatever is refused on the way, the pages that are there after each operation are the ones
that are reached from the root, no other page is mentioned, and the books balance. -/
theorem owns_its_pages {config : Config} (hvalid : config.validate = .ok ()) (measures : MeasureSet I)
    (keyOf : I → K) {turns : List (Turn K I)} (hlenient : ∀ turn ∈ turns, turn.Lenient)
    (hn : NumbersLast turns (fresh config measures keyOf)) :
    Action.Runs (Tree.create config measures keyOf) (Pager.inMemory .wide) (fresh config measures keyOf).tree
        (fresh config measures keyOf).pager
      ∧ (∀ done, done <+: turns → Tidy (afterTurns done (fresh config measures keyOf)))
      ∧ ∀ done turn, done ++ [turn] <+: turns →
        let s := turn.before (afterTurns done (fresh config measures keyOf))
        let u := afterTurns (done ++ [turn]) (fresh config measures keyOf)
        Upkeep s u turn.op (turn.op.perform.answer s) := by
  have hfresh : Owns (fresh config measures keyOf) 0 (.leaf ⟨0⟩ measures.identity .empty) := by
    refine ⟨holds_fresh measures keyOf (Config.of_validate hvalid).1, fun r hr => ?_⟩
    rw [fresh, Pager.page?_fresh] at hr
    rw [Subtree.refs_leaf, List.mem_singleton]
    by_contra hne
    rw [if_neg (Ne.symm hne)] at hr
    exact absurd hr (by simp)
  have hrun : ∀ done, done <+: turns → ∃ d T, Owns (afterTurns done (fresh config measures keyOf)) d T := by
    rintro done ⟨rest, rfl⟩
    exact hfresh.run (fun turn hturn => hlenient turn (List.mem_append_left _ hturn)) (numbersLast_append.mp hn).1
  refine ⟨Tree.create_runs measures keyOf hvalid, fun done hdone => ?_, fun done turn hdone => ?_⟩
  · obtain ⟨d, T, h⟩ := hrun done hdone
    exact h.tidy
  · obtain ⟨d, T, h⟩ := hrun done ((List.prefix_append done [turn]).trans hdone)
    obtain ⟨rest, rfl⟩ := hdone
    rw [List.append_assoc] at hn
    obtain ⟨-, -, -, hupkeep⟩ := h.keeps (hlenient turn (by simp)) (numbersLast_append.mp hn).2.1
    rw [afterTurns_append]
    exact hupkeep

/-- A leaf is split once the second of the two pages for it is not refused any more; the halves are merged once the
page beside the way is not refused any more; and where all is cleared only one page may be made. -/
def churn : List (Turn UInt64 UInt64) :=
  [⟨.add 1, .wide⟩, ⟨.add 2, .wide⟩, ⟨.add 3, .wide⟩, ⟨.add 4, .wide⟩,
    ⟨.add 5, { Gate.wide with create := .quota 1 }⟩, ⟨.add 5, .wide⟩,
    ⟨.remove 1, { Gate.wide with resolve := .quota 2 }⟩, ⟨.remove 1, .wide⟩,
    ⟨.clear, { Gate.wide with resolve := .quota 0, create := .quota 1 }⟩, ⟨.add 6, .wide⟩]

theorem owns_its_pages_churn : Config.validate { pageSize := 4 } = .ok () ∧ (∀ turn ∈ churn, turn.Lenient)
    ∧ NumbersLast churn (fresh { pageSize := 4 } [.count] id)
    ∧ ∀ done, done <+: churn → Tidy (afterTurns done (fresh { pageSize := 4 } [.count] id)) := by
  have hlenient : ∀ turn ∈ churn, turn.Lenient := by
    simp only [churn, List.forall_mem_cons]
    refine ⟨?_, ?_, ?_, ?_, ?_, ?_, ?_, ?_, ?_, ?_, fun _ h => absurd h List.not_mem_nil⟩ <;>
      exact ⟨Schedule.grants_always, fun _ => ⟨rfl, rfl⟩⟩
  have hnumbers : NumbersLast churn (fresh { pageSize := 4 } [.count] id) := by decide +kernel
  exact ⟨rfl, hlenient, hnumbers, (owns_its_pages rfl [.count] id hlenient hnumbers).2.1⟩

end Run

end PagedIndex.Index
