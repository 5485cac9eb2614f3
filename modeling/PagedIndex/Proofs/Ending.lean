import PagedIndex.Proofs.Stocked

/-!
# Verification ends

Whatever pages there are, also such that point to themselves or to one another in a circle, verification comes to an
end (`verify_ends`), although it does not keep in mind where it has been. Each page hands narrower ranges down to its
children than it has got itself, and none of its keys but the smallest of such a range lies in it (`Spent`). A page
other than the root has two keys, so it is not passed again below itself. The root may be passed once more, with a
single key; but then nothing at all lies in the range of its first child, and no page passes there. So no way down is
longer than there are pages, by a few steps, and a limit on its length that is not shorter has no part in the outcome.

The end is an answer or a failure, unless there is a page that cannot be passed: verification takes the separator in
front of every child but the first and, once all pages went through, the first child of every page down to the first
leaf. Where there is none it aborts, and such a page may be all that removals leave (`verify_aborts_drained`).
-/

namespace PagedIndex

open PagedIndex.Action Service

variable {K I : Type}

/-! ## Ranges without new keys -/

section

variable [Ord K] {lower upper : Option K} {ks : List K}

/-- Of these keys at most the smallest of the range lies in it. -/
def Spent (lower upper : Option K) (ks : List K) : Prop :=
  ∀ k ∈ ks, InRange lower upper k → ∀ x, InRange lower upper x → (compare k x).isLE

theorem Spent.narrow {lower' upper' : Option K} (h : Spent lower upper ks)
    (hin : ∀ x, InRange lower' upper' x → InRange lower upper x) : Spent lower' upper' ks :=
  fun k hk hrange x hx => h k hk (hin k hrange) x (hin x hx)

variable [Std.TransOrd K]

/-- A page with two keys that lie in its range is not spent. -/
theorem not_spent (hinc : Increasing ks) (hlen : 2 ≤ ks.length) (hrange : ∀ k ∈ ks, InRange lower upper k) :
    ¬ Spent lower upper ks := by
  intro h
  match ks, hlen with
  | a :: b :: rest, _ =>
    have hlt : compare a b = .lt := (List.pairwise_cons.mp hinc).1 b List.mem_cons_self
    have hle := h b (by simp) (hrange b (by simp)) a (hrange a (by simp))
    exact Std.OrientedCmp.not_isLE_of_lt hlt hle

/-- Between two of its separators a page is spent. -/
theorem spent_child (hinc : Increasing ks) {i : Nat} (hi : i ≤ ks.length) :
    Spent (lowerAt lower ks i) (ks[i]?.or upper) ks := by
  intro k hk hrange x hx
  obtain ⟨j, hj, rfl⟩ := List.mem_iff_getElem.mp hk
  have hlt := List.pairwise_iff_getElem.mp hinc
  rcases Nat.lt_or_ge j i with hji | hij
  · -- it is at most the separator in front of the child
    obtain ⟨i, rfl⟩ : ∃ n, i = n + 1 := ⟨i - 1, by omega⟩
    have hlow := hx.1
    rw [lowerAt, List.getElem?_eq_getElem (by omega)] at hlow
    rcases Nat.lt_or_ge j i with hlt' | hge
    · exact Std.TransCmp.isLE_trans (by rw [hlt j i hj (by omega) hlt']; rfl) hlow
    · obtain rfl : j = i := by omega
      exact hlow
  · -- it is at least the separator behind the child
    have hup := hrange.2
    rw [List.getElem?_eq_getElem (by omega)] at hup
    have hup : compare ks[j] ks[i] = .lt := hup
    rcases Nat.lt_or_ge i j with hlt' | hge
    · rw [Std.OrientedCmp.gt_of_lt (hlt i j (by omega) hj hlt')] at hup
      exact absurd hup (by decide)
    · obtain rfl : i = j := by omega
      rw [Std.ReflOrd.compare_self] at hup
      exact absurd hup (by decide)

/-- In front of the first key of a spent page nothing lies in its range. -/
theorem Spent.nothing {k : K} (h : Spent lower upper (k :: ks)) (hk : InRange lower upper k) (x : K) :
    ¬ InRange lower (some k) x := by
  rintro ⟨hlow, hup⟩
  have hup : compare x k = .lt := hup
  have hin : InRange lower upper x := by
    refine ⟨hlow, ?_⟩
    cases upper with
    | none => trivial
    | some u => exact Std.TransCmp.lt_trans hup hk.2
  exact Std.OrientedCmp.not_isLE_of_lt hup (h k List.mem_cons_self hk x hin)

end

variable [IndexKey K] [Codec I] {srv : Service K I}

/-! ## Computations that do the same -/

namespace Service

variable {α β : Type} {Q R : α → Prop} {x y : Paging K I α}

/-- There is a page that cannot be passed. -/
def Blocked (srv : Service K I) : Prop := ∃ ref page, srv.view ref = some page ∧ ¬ page.Passable

/-- The computation came to an end: with an answer for which `Q` holds, with a failure, or at a page that cannot be
passed. -/
def Ended (srv : Service K I) (Q : α → Prop) : EStateM.Result (Halt IndexError) (Pager K I) α → Prop
  | .ok a pager => srv.Serves pager ∧ Q a
  | .error (.failed _) _ => True
  | .error .aborted _ => srv.Blocked
  | .error .endless _ => False

theorem Ended.mono {r : EStateM.Result (Halt IndexError) (Pager K I) α} (h : srv.Ended Q r) (hQ : ∀ a, Q a → R a) :
    srv.Ended R r := by
  cases r with
  | ok a pager => exact h.imp_right (hQ a)
  | error halt pager => cases halt <;> exact h

theorem Ended.of_served {r : EStateM.Result (Halt IndexError) (Pager K I) α}
    (h : Served srv.Serves srv.Refuses Q r) : srv.Ended Q r := by
  cases r with
  | ok a pager => exact h
  | error halt pager =>
    cases halt with
    | failed e => trivial
    | aborted => exact h.elim
    | endless => exact h.elim

theorem Ended.answer {pager : Pager K I} (h : srv.Ended Q (x pager)) :
    x.answer pager ≠ .error .endless ∧ (x.answer pager = .error .aborted → srv.Blocked) := by
  unfold Action.answer
  cases hrun : x pager with
  | ok a q => simp
  | error halt q =>
    rw [hrun] at h
    cases halt with
    | failed e => simp
    | aborted => exact ⟨by simp, fun _ => h⟩
    | endless => exact h.elim

/-- While the service is kept, both computations do the same and come to an end. -/
def Alike (srv : Service K I) (x y : Paging K I α) (Q : α → Prop) : Prop :=
  ∀ pager, srv.Serves pager → srv.Ended Q (x pager) ∧ y pager = x pager

theorem Reads.alike (h : srv.Reads x Q) : srv.Alike x x Q := fun pager hp => ⟨.of_served (h pager hp), rfl⟩

theorem Alike.mono (h : srv.Alike x y Q) (hQ : ∀ a, Q a → R a) : srv.Alike x y R :=
  fun pager hp => (h pager hp).imp_left fun hended => hended.mono hQ

theorem alike_pure {a : α} (h : Q a) : srv.Alike (pure a) (pure a) Q := (reads_pure h).alike

theorem alike_abort (h : srv.Blocked) : srv.Alike (Action.abort : Paging K I α) Action.abort Q := fun _ _ => ⟨h, rfl⟩

theorem Alike.bind {f g : α → Paging K I β} {R : β → Prop} (h : srv.Alike x y Q)
    (hf : ∀ a, Q a → srv.Alike (f a) (g a) R) : srv.Alike (x >>= f) (y >>= g) R := by
  intro pager hp
  obtain ⟨hended, hsame⟩ := h pager hp
  rw [bind_apply, bind_apply, hsame]
  cases hrun : x pager with
  | ok a q =>
    rw [hrun] at hended
    exact hf a hended.2 q hended.1
  | error halt q =>
    rw [hrun] at hended
    refine ⟨?_, rfl⟩
    cases halt <;> exact hended

/-- A computation that asks for the pager does the same as one that does not if it does so with any pager. -/
theorem alike_get {f : Pager K I → Paging K I α} (h : ∀ pager, srv.Serves pager → srv.Alike x (f pager) Q) :
    srv.Alike x (get >>= f) Q :=
  fun pager hp => h pager hp pager hp

theorem Reads.and_yields (h : srv.Reads x Q) (hy : srv.Yields x R) : srv.Reads x fun a => Q a ∧ R a := by
  intro pager hp
  have hserved := h pager hp
  cases hrun : x pager with
  | ok a q =>
    rw [hrun] at hserved
    exact ⟨hserved.1, hserved.2, (hy pager hp a q hrun).2⟩
  | error halt q =>
    rw [hrun] at hserved
    cases halt <;> exact hserved

/-- A check that comes to an end goes through only if what it asks for holds. -/
theorem Reads.settled {P : Prop} {a : α} (h : srv.Reads x fun _ => True) (hs : Settles x P a) :
    srv.Reads x fun _ => P :=
  (h.and_yields (yields_of_settles hs)).mono fun _ hb => hb.2.1

end Service

/-! ## The checks of one page -/

namespace Service.Total

variable {α : Type} {names : Nat} (h : srv.Total names)
include h

theorem reads_fail {Q : α → Prop} (e : IndexError) : srv.Reads (Action.fail e) Q := fun pager _ => h.refuses e pager

theorem reads_fail_bind {β : Type} {Q : β → Prop} (e : IndexError) (f : α → Paging K I β) :
    srv.Reads (Action.fail e >>= f) Q := fun pager _ => h.refuses e pager

theorem reads_ofExcept (r : Except IndexError α) : srv.Reads (Action.ofExcept r) fun _ => True := by
  cases r with
  | ok a => exact reads_pure trivial
  | error e => exact h.reads_fail e

theorem reads_demand (page : PageRef) (sound : Bool) (flaw : Flaw) :
    srv.Reads (Tree.demand page sound flaw) fun _ => True := by
  unfold Tree.demand
  split
  · exact reads_pure trivial
  · exact h.reads_fail _

variable {tree : Tree K I} {ref : PageRef} {lower upper : Option K}

theorem reads_checkSize (page : Page K I) : srv.Reads (tree.checkSize ref page) fun _ => page.ref = ref
    ∧ page.size ≤ tree.config.pageSize ∧ (ref = tree.root ∨ tree.config.minFill ≤ page.size) :=
  Reads.settled ((h.reads_demand _ _ _).bind fun _ _ => (h.reads_demand _ _ _).bind fun _ _ =>
    h.reads_demand _ _ _) Tree.settles_checkSize

theorem reads_checkDepth (depth : Nat) (seen : Tree.Seen) :
    srv.Reads (Tree.checkDepth ref depth seen : Paging K I Tree.Seen) fun _ => True := by
  unfold Tree.checkDepth
  dsimp only
  split
  · exact (h.reads_demand _ _ _).bind fun _ _ => reads_pure trivial
  · exact reads_pure trivial

theorem reads_foldResolved (refs : List PageRef) : srv.Reads (tree.foldResolved refs) fun _ => True :=
  (reads_mapM (P := fun _ _ => True) fun ref _ => (h.resolve ref).mono fun _ _ => trivial).bind fun _ _ =>
    reads_pure trivial

variable [Std.TransOrd K]

theorem reads_checkEntries (measures : List Int64) (leaf : Leaf K I) :
    srv.Reads (tree.checkEntries ref measures leaf lower upper) fun _ =>
      ∀ k ∈ leaf.keys, InRange lower upper k := by
  refine (Reads.settled ?_ Tree.settles_checkEntries).mono fun _ hb => hb.2.1
  refine (h.reads_demand _ _ _).bind fun _ _ => ?_
  dsimp only
  split
  · exact h.reads_fail_bind _ _
  · split
    · exact h.reads_fail_bind _ _
    · exact h.reads_demand _ _ _

theorem reads_checkSeparators (inner : Inner K) :
    srv.Reads (tree.checkSeparators ref inner lower upper : Paging K I Unit) fun _ =>
      (ref = tree.root → inner.keys ≠ []) ∧ Increasing inner.keys ∧ ∀ k ∈ inner.keys, InRange lower upper k := by
  refine Reads.settled ?_ Tree.settles_checkSeparators
  refine (h.reads_demand _ _ _).bind fun _ _ => (h.reads_demand _ _ _).bind fun _ _ => ?_
  split
  · exact h.reads_fail _
  · exact reads_pure trivial

end Service.Total

/-! ## The way down -/

/-- The separators of a page; a leaf has none. -/
def Page.separators (page : Page K I) : List K :=
  match page.node with
  | .leaf _ => []
  | .inner inner => inner.keys

namespace Tree

/-- The pages above one that is to be checked for a range, the root among them, none of them twice: all of them are
spent in this range. -/
structure Trail (view : PageRef → Option (Page K I)) (root : PageRef) (lower upper : Option K) (above : List PageRef) :
    Prop where
  start : root ∈ above
  /-- The root is an inner page with separators. -/
  forks : ∀ page, view root = some page → page.separators ≠ []
  nodup : above.Nodup
  held : ∀ r ∈ above, (view r).isSome
  spent : ∀ r ∈ above, ∀ page, view r = some page → Spent lower upper page.separators

variable {view : PageRef → Option (Page K I)} {root ref : PageRef} {lower upper : Option K} {above : List PageRef}

omit [Codec I] in
/-- One page more, all keys of which lie in the range. -/
theorem Trail.child [Std.TransOrd K] (h : Trail view root lower upper above) {page : Page K I}
    (hpage : view ref = some page) (hinc : Increasing page.separators)
    (hrange : ∀ k ∈ page.separators, InRange lower upper k) (hlen : 2 ≤ page.separators.length) {i : Nat}
    (hi : i ≤ page.separators.length) :
    Trail view root (lowerAt lower page.separators i) (page.separators[i]?.or upper) (ref :: above) where
  start := List.mem_cons_of_mem _ h.start
  forks := h.forks
  nodup := List.nodup_cons.mpr ⟨fun hmem => not_spent hinc hlen hrange (h.spent ref hmem page hpage), h.nodup⟩
  held := List.forall_mem_cons.mpr ⟨by rw [hpage]; rfl, h.held⟩
  spent := by
    refine List.forall_mem_cons.mpr ⟨fun page' hpage' => ?_, fun r hr page' hpage' => ?_⟩
    · obtain rfl := Option.some.inj (hpage.symm.trans hpage')
      exact spent_child hinc hi
    · exact (h.spent r hr page' hpage').narrow fun x hx => hx.widen hrange hi

omit [Codec I] in
/-- Above the children of the root there is only the root. -/
theorem trail_root [Std.TransOrd K] {page : Page K I} (hpage : view root = some page)
    (hinc : Increasing page.separators) (hne : page.separators ≠ []) {i : Nat} (hi : i ≤ page.separators.length) :
    Trail view root (lowerAt lower page.separators i) (page.separators[i]?.or upper) [root] := by
  refine ⟨List.mem_singleton_self root, fun page' h => ?_, List.nodup_singleton root, ?_, ?_⟩
  · obtain rfl := Option.some.inj (hpage.symm.trans h)
    exact hne
  · exact List.forall_mem_singleton.mpr (by rw [hpage]; rfl)
  · refine List.forall_mem_singleton.mpr fun page' h => ?_
    obtain rfl := Option.some.inj (hpage.symm.trans h)
    exact spent_child hinc hi

/-! ## First children -/

/-- So many steps from a page, each to a first child, lies a leaf or a page with separators that has no child. -/
inductive Leads (view : PageRef → Option (Page K I)) : Nat → PageRef → Prop
  | here {ref : PageRef} {page : Page K I} : view ref = some page → page.children[0]? = none →
    (page.isLeaf = false → page.separators ≠ []) → Leads view 0 ref
  | down {n : Nat} {ref child : PageRef} {page : Page K I} : view ref = some page → page.children[0]? = some child →
    Leads view n child → Leads view (n + 1) ref

omit [IndexKey K] [Codec I] in
theorem Leads.isSome {n : Nat} (h : Leads view n ref) : (view ref).isSome := by
  cases h with
  | here hpage | down hpage => rw [hpage]; rfl

omit [IndexKey K] [Codec I] in
/-- There is one way on from each page, and it is of one length. -/
theorem Leads.unique {n m : Nat} (h : Leads view n ref) (h' : Leads view m ref) : n = m := by
  induction h generalizing m with
  | here hpage hnone =>
    cases h' with
    | here => rfl
    | down hpage' hchild' =>
      obtain rfl := Option.some.inj (hpage.symm.trans hpage')
      exact absurd (hnone.symm.trans hchild') (by simp)
  | down hpage hchild _ ih =>
    cases h' with
    | here hpage' hnone' =>
      obtain rfl := Option.some.inj (hpage.symm.trans hpage')
      exact absurd (hnone'.symm.trans hchild) (by simp)
    | down hpage' hchild' hlead' =>
      obtain rfl := Option.some.inj (hpage.symm.trans hpage')
      obtain rfl := Option.some.inj (hchild.symm.trans hchild')
      rw [ih hlead']

omit [IndexKey K] [Codec I] in
/-- No page is met twice, as the way on from it would be of two lengths. -/
theorem Leads.exists_way {n : Nat} (h : Leads view n ref) :
    ∃ refs : List PageRef, refs.length = n + 1 ∧ refs.Nodup ∧ ∀ r ∈ refs, ∃ k ≤ n, Leads view k r := by
  induction h with
  | @here ref page hpage hnone hne =>
    exact ⟨[ref], rfl, List.nodup_singleton ref,
      List.forall_mem_singleton.mpr ⟨0, Nat.le_refl 0, .here hpage hnone hne⟩⟩
  | @down n ref child page hpage hchild hlead ih =>
    obtain ⟨refs, hlen, hnd, hrefs⟩ := ih
    have hlonger : Leads view (n + 1) ref := .down hpage hchild hlead
    refine ⟨ref :: refs, by rw [List.length_cons, hlen], List.nodup_cons.mpr ⟨fun hmem => ?_, hnd⟩, ?_⟩
    · obtain ⟨k, hk, hagain⟩ := hrefs ref hmem
      exact absurd (hlonger.unique hagain) (by omega)
    · refine List.forall_mem_cons.mpr ⟨⟨n + 1, Nat.le_refl _, hlonger⟩, fun r hr => ?_⟩
      obtain ⟨k, hk, hlead⟩ := hrefs r hr
      exact ⟨k, Nat.le_succ_of_le hk, hlead⟩

omit [IndexKey K] [Codec I] in
theorem leads_leaf {m : List Int64} {leaf : Leaf K I} (hpage : view ref = some ⟨ref, m, .leaf leaf⟩) :
    ∃ n, Leads view n ref :=
  ⟨0, .here hpage rfl fun hinner => absurd hinner (by simp [Page.isLeaf])⟩

omit [IndexKey K] [Codec I] in
/-- There is a way from a page with separators if there is one from its first child, as far as it has a child. -/
theorem exists_leads {page : Page K I} (hpage : view ref = some page) (hne : page.separators ≠ [])
    (h : ∀ child, page.children[0]? = some child → ∃ n, Leads view n child) : ∃ n, Leads view n ref := by
  cases hchild : page.children[0]? with
  | none => exact ⟨0, .here hpage hchild fun _ => hne⟩
  | some child =>
    obtain ⟨n, hlead⟩ := h child hchild
    exact ⟨n + 1, .down hpage hchild hlead⟩

/-! ## The walk -/

variable {tree : Tree K I} {names limit limit' depth : Nat} {seen : Seen}

theorem alike_checkChildren {check check' : PageRef → Option K → Option K → Seen → Paging K I (Nat × Seen)}
    {keys : List K} {children : List PageRef} {P : PageRef → Prop}
    (hsurplus : keys.length + 1 < children.length → srv.Blocked)
    (hcheck : ∀ i ≤ keys.length, ∀ child seen, srv.Alike
      (check child (lowerAt lower keys i) (keys[i]?.or upper) seen)
      (check' child (lowerAt lower keys i) (keys[i]?.or upper) seen) fun _ => P child) :
    srv.Alike (checkChildren check upper lower keys children seen) (checkChildren check' upper lower keys children seen)
      fun _ => ∀ child, children[0]? = some child → P child := by
  induction keys generalizing lower children seen with
  | nil =>
    match children with
    | [] => exact alike_pure fun _ hfirst => absurd hfirst (by simp)
    | [child] =>
      refine (hcheck 0 (Nat.le_refl 0) child seen).bind fun _ hchild => alike_pure fun _ hfirst => ?_
      exact Option.some.inj hfirst ▸ hchild
    | child :: surplus :: children =>
      exact (hcheck 0 (Nat.le_refl 0) child seen).bind fun _ _ => alike_abort (hsurplus (by simp))
  | cons key keys ih =>
    cases children with
    | nil => exact alike_pure fun _ hfirst => absurd hfirst (by simp)
    | cons child children =>
      refine (hcheck 0 (Nat.zero_le _) child seen).bind fun out hchild => ?_
      refine (ih (fun hlt => hsurplus (by simpa using hlt)) fun i hi child' seen => ?_).bind fun _ _ =>
        alike_pure fun _ hfirst => Option.some.inj hfirst ▸ hchild
      rw [← Subtree.lowerAt_cons]
      exact hcheck (i + 1) (Nat.succ_le_succ hi) child' seen

omit [IndexKey K] [Codec I] in
/-- No inner page that passes is without separators: the root has one, and any other page has two. -/
theorem ne_nil_of_filled (hp : 4 ≤ tree.config.pageSize) {ks : List K}
    (hfill : ref = tree.root ∨ tree.config.minFill ≤ ks.length) (hroot : ref = tree.root → ks ≠ []) : ks ≠ [] := by
  rcases hfill with hr | hfill
  · exact hroot hr
  · rw [Config.minFill] at hfill
    exact List.ne_nil_of_length_pos (by omega)

/-- The children of a page with separators: if there are too many of them, it cannot be passed, and otherwise the way
from its first child is one from the page. -/
theorem alike_checkChildren_of_page {check check' : PageRef → Option K → Option K → Seen → Paging K I (Nat × Seen)}
    {m : List Int64} {inner : Inner K} (hpage : srv.view ref = some ⟨ref, m, .inner inner⟩) (hne : inner.keys ≠ [])
    (hcheck : ∀ i ≤ inner.keys.length, ∀ child seen, srv.Alike
      (check child (lowerAt lower inner.keys i) (inner.keys[i]?.or upper) seen)
      (check' child (lowerAt lower inner.keys i) (inner.keys[i]?.or upper) seen)
      fun _ => ∃ n, Leads srv.view n child) :
    srv.Alike (checkChildren check upper lower inner.keys inner.children seen)
      (checkChildren check' upper lower inner.keys inner.children seen) fun _ => ∃ n, Leads srv.view n ref := by
  have hblocked : inner.keys.length + 1 < inner.children.length → srv.Blocked := fun hlt =>
    ⟨ref, _, hpage, fun hpass => absurd hlt (Nat.not_lt_of_le (hpass rfl (List.length_pos_iff.mpr hne)).2)⟩
  exact (alike_checkChildren hblocked hcheck).mono fun _ hfirst => exists_leads hpage hne hfirst

variable [Std.TransOrd K]

omit [IndexKey K] [Codec I] [Std.TransOrd K] in
/-- A page that is filled has two slots unless it is the root. -/
theorem two_le_of_filled (hp : 4 ≤ tree.config.pageSize) {n : Nat}
    (h : ref = tree.root ∨ tree.config.minFill ≤ n) : ref = tree.root ∨ 2 ≤ n := by
  rw [Config.minFill] at h
  exact h.imp_right fun _ => by omega

/-- What the check of a page does is the same for both limits if it is the same for its children. -/
theorem alike_checkPage_succ (h : srv.Total names) (hp : 4 ≤ tree.config.pageSize) {Q : Nat × Seen → Prop}
    (hleaf : ∀ m leaf, srv.view ref = some ⟨ref, m, .leaf leaf⟩ → ref = tree.root ∨ 2 ≤ leaf.keys.length →
      (∀ k ∈ leaf.keys, InRange lower upper k) → ∀ out, Q out)
    (hinner : ∀ m inner, srv.view ref = some ⟨ref, m, .inner inner⟩ → ref = tree.root ∨ 2 ≤ inner.keys.length →
      inner.keys ≠ [] → Increasing inner.keys → (∀ k ∈ inner.keys, InRange lower upper k) → srv.Alike
        (checkChildren (tree.checkPage limit (depth + 1)) upper lower inner.keys inner.children seen)
        (checkChildren (tree.checkPage limit' (depth + 1)) upper lower inner.keys inner.children seen) Q) :
    srv.Alike (tree.checkPage (limit + 1) depth ref lower upper seen)
      (tree.checkPage (limit' + 1) depth ref lower upper seen) Q := by
  -- the limit has no part in the checks of the page itself
  refine (h.resolve ref).alike.bind fun page hpage => ?_
  refine (h.reads_checkSize page).alike.bind fun _ hsize => ?_
  obtain ⟨name, m, node⟩ := page
  obtain ⟨rfl, -, hfilled⟩ := hsize
  cases node with
  | leaf leaf =>
    refine (h.reads_checkEntries m leaf).alike.bind fun _ hrange => ?_
    refine (h.reads_checkDepth depth seen).alike.bind fun _ _ => alike_pure ?_
    refine hleaf m leaf hpage ((two_le_of_filled hp hfilled).imp_right fun htwo => ?_) hrange _
    rw [Leaf.keys, List.length_map]
    exact htwo
  | inner inner =>
    refine (h.reads_checkSeparators inner).alike.bind fun _ hseparators => ?_
    obtain ⟨hroot, hinc, hrange⟩ := hseparators
    refine (h.reads_foldResolved inner.children).alike.bind fun _ _ => ?_
    refine (h.reads_demand _ _ _).alike.bind fun _ _ => ?_
    exact hinner m inner hpage (two_le_of_filled hp hfilled) (ne_nil_of_filled hp hfilled hroot) hinc hrange

/-- Where nothing lies in the range no page goes through. -/
theorem alike_checkPage_nowhere (h : srv.Total names) (hp : 4 ≤ tree.config.pageSize)
    (hforks : ∀ page, srv.view tree.root = some page → page.separators ≠ []) (hnowhere : ∀ x, ¬ InRange lower upper x) :
    srv.Alike (tree.checkPage (limit + 1) depth ref lower upper seen)
      (tree.checkPage (limit' + 1) depth ref lower upper seen) fun _ => False := by
  refine alike_checkPage_succ h hp (fun m leaf hpage htwo hrange _ => ?_) fun m inner _ _ hne _ hrange => ?_
  · rcases htwo with rfl | htwo
    · exact hforks _ hpage rfl
    · obtain ⟨k, hk⟩ := List.exists_mem_of_length_pos (show 0 < leaf.keys.length by omega)
      exact hnowhere k (hrange k hk)
  · obtain ⟨k, hk⟩ := List.exists_mem_of_ne_nil _ hne
    exact absurd (hrange k hk) (hnowhere k)

/-- The root once more: nothing lies in the range of its first child. -/
theorem Trail.alike_root (h : srv.Total names) (hp : 4 ≤ tree.config.pageSize)
    (htrail : Trail srv.view tree.root lower upper above) {m : List Int64} {inner : Inner K}
    (hpage : srv.view tree.root = some ⟨tree.root, m, .inner inner⟩) (hne : inner.keys ≠ [])
    (hrange : ∀ k ∈ inner.keys, InRange lower upper k) : srv.Alike
      (checkChildren (tree.checkPage (limit + 1) depth) upper lower inner.keys inner.children seen)
      (checkChildren (tree.checkPage (limit' + 1) depth) upper lower inner.keys inner.children seen) fun _ =>
        inner.children = [] := by
  obtain ⟨keys, children⟩ := inner
  have hspent : Spent lower upper keys := htrail.spent _ htrail.start _ hpage
  cases keys with
  | nil => exact absurd rfl hne
  | cons k keys =>
    cases children with
    | nil => exact alike_pure rfl
    | cons child children =>
      have hnowhere := hspent.nothing (hrange k List.mem_cons_self)
      exact (alike_checkPage_nowhere h hp htrail.forks hnowhere).bind fun _ hfalse => hfalse.elim

/-- Below a trail the check of a page comes to an end, within any limit that is not shorter than there are pages. -/
theorem Trail.alike_checkPage (h : srv.Total names) (hp : 4 ≤ tree.config.pageSize)
    (htrail : Trail srv.view tree.root lower upper above) (hlimit : names + 3 ≤ limit + above.length)
    (hlimit' : names + 3 ≤ limit' + above.length) : srv.Alike (tree.checkPage limit depth ref lower upper seen)
      (tree.checkPage limit' depth ref lower upper seen) fun _ => ∃ n, Leads srv.view n ref := by
  have hcount := h.count above htrail.nodup htrail.held
  -- a trail is never longer than there are pages, so that the limits are not used up
  induction limit generalizing limit' above ref lower upper depth seen with
  | zero => exact absurd hlimit (by omega)
  | succ limit ih =>
    obtain ⟨limit', rfl⟩ : ∃ n, limit' = n + 1 := ⟨limit' - 1, by omega⟩
    refine alike_checkPage_succ h hp (fun _ _ hpage _ _ _ => leads_leaf hpage)
      fun m inner hpage htwo hne hinc hrange => ?_
    -- the root alone may have a single separator, and so nothing between whose keys the trail could go on
    rcases htwo with rfl | htwo
    · obtain ⟨limit, rfl⟩ : ∃ n, limit = n + 1 := ⟨limit - 1, by omega⟩
      obtain ⟨limit', rfl⟩ : ∃ n, limit' = n + 1 := ⟨limit' - 1, by omega⟩
      refine (htrail.alike_root h hp hpage hne hrange).mono fun _ hbare => exists_leads hpage hne fun child hchild => ?_
      exact absurd hchild (by simp [Page.children, hbare])
    · refine alike_checkChildren_of_page hpage hne fun i hi child seen => ?_
      have hlonger := htrail.child hpage hinc hrange htwo hi
      refine ih hlonger ?_ ?_ (h.count _ hlonger.nodup hlonger.held)
      · rw [List.length_cons]
        omega
      · rw [List.length_cons]
        omega

/-- The check of the whole tree comes to an end, within any limit that is not shorter than there are pages. -/
theorem alike_checkPage_root (h : srv.Total names) (hp : 4 ≤ tree.config.pageSize) (hlimit : names + 3 ≤ limit)
    (hlimit' : names + 3 ≤ limit') : srv.Alike (tree.checkPage limit depth tree.root lower upper seen)
      (tree.checkPage limit' depth tree.root lower upper seen) fun _ => ∃ n, Leads srv.view n tree.root := by
  obtain ⟨limit, rfl⟩ : ∃ n, limit = n + 1 := ⟨limit - 1, by omega⟩
  obtain ⟨limit', rfl⟩ : ∃ n, limit' = n + 1 := ⟨limit' - 1, by omega⟩
  refine alike_checkPage_succ h hp (fun _ _ hpage _ _ _ => leads_leaf hpage) fun m inner hpage _ hne hinc _ => ?_
  refine alike_checkChildren_of_page hpage hne fun i hi child seen => ?_
  exact (trail_root hpage hinc hne hi).alike_checkPage h hp (by rw [List.length_singleton]; omega)
    (by rw [List.length_singleton]; omega)

/-! ## The whole tree -/

/-- The first leaf, unless it lies `limit` pages deep. -/
def firstLeafWithin (tree : Tree K I) (limit : Nat) : Paging K I (Page K I) := do
  let (leaf, _) ← descendFirst limit tree.root
  Pager.resolve leaf

/-- Verification that is given up where a way down is longer than `limit` pages. -/
def verifyWithin (tree : Tree K I) (limit : Nat) : Paging K I Unit := do
  let (items, seen) ← tree.checkPage limit 1 tree.root none none { depth := none, leaves := [] }
  demand tree.root (items == tree.len) (.itemCount items tree.len)
  let last := seen.leaves.getLast?.getD tree.root
  demand tree.rightmost (last == tree.rightmost) (.rightmostIs last)
  let first ← tree.firstLeafWithin limit
  checkChain seen.leaves (some first.ref)

omit [Std.TransOrd K] in
theorem alike_firstChild? (h : srv.Total names) {page : Page K I} (hpage : srv.view ref = some page)
    (hne : page.isLeaf = false → page.children[0]? = none → page.separators ≠ []) :
    srv.Alike (firstChild? ref) (firstChild? ref) (· = page.children[0]?) := by
  refine (h.resolve ref).alike.bind fun page' hpage' => ?_
  obtain rfl := Option.some.inj (hpage.symm.trans hpage')
  obtain ⟨name, m, node⟩ := page
  cases node with
  | leaf leaf => exact alike_pure rfl
  | inner inner =>
    show srv.Alike (Action.orAbort inner.children[0]? >>= fun child => pure (some child))
      (Action.orAbort inner.children[0]? >>= fun child => pure (some child)) (· = inner.children[0]?)
    cases hchild : inner.children[0]? with
    | some child => exact alike_pure rfl
    | none =>
      have hbare : inner.children = [] := by simpa using hchild
      refine alike_abort ⟨ref, _, hpage, fun hpass => ?_⟩
      exact List.length_pos_iff.mp (hpass rfl (List.length_pos_iff.mpr (hne rfl hchild))).1 hbare

omit [Std.TransOrd K] in
/-- The descent from a page ends where the way from it does; it aborts there if that is not a leaf. -/
theorem Leads.alike_descendFirst (h : srv.Total names) {n : Nat} (hlead : Leads srv.view n ref) (hn : n < limit)
    (hn' : n < limit') : srv.Alike (descendFirst limit ref) (descendFirst limit' ref) fun _ => True := by
  induction hlead generalizing limit limit' with
  | here hpage hnone hne =>
    obtain ⟨limit, rfl⟩ := Nat.exists_eq_add_of_lt hn
    obtain ⟨limit', rfl⟩ := Nat.exists_eq_add_of_lt hn'
    refine (alike_firstChild? h hpage fun hleaf _ => hne hleaf).bind fun first hfirst => ?_
    obtain rfl := hfirst.trans hnone
    exact alike_pure trivial
  | down hpage hchild _ ih =>
    obtain ⟨limit, rfl⟩ : ∃ k, limit = k + 1 := ⟨limit - 1, by omega⟩
    obtain ⟨limit', rfl⟩ : ∃ k, limit' = k + 1 := ⟨limit' - 1, by omega⟩
    refine (alike_firstChild? h hpage fun _ hnone => ?_).bind fun first hfirst => ?_
    · exact absurd (hnone.symm.trans hchild) (by simp)
    · obtain rfl := hfirst.trans hchild
      exact (ih (Nat.lt_of_succ_lt_succ hn) (Nat.lt_of_succ_lt_succ hn')).bind fun _ _ => alike_pure trivial

omit [Std.TransOrd K] in
theorem reads_checkChain_any (h : srv.Total names) (leaves : List PageRef) (next : Option PageRef) :
    srv.Reads (checkChain leaves next) fun _ => True := by
  induction leaves generalizing next with
  | nil =>
    cases next with
    | none => exact reads_pure trivial
    | some extra => exact h.reads_fail _
  | cons expected leaves ih =>
    refine (h.reads_demand _ _ _).bind fun _ _ => (h.resolve expected).bind fun page _ => ?_
    exact (h.reads_ofExcept page.asLeaf).bind fun leaf _ => ih leaf.right

/-- Verification comes to an end, and no limit that is not shorter than there are pages has a part in it. -/
theorem alike_verify (h : srv.Total names) (hp : 4 ≤ tree.config.pageSize) (hlimit : names + 3 ≤ limit) :
    srv.Alike (tree.verifyWithin limit) tree.verify fun _ => True := by
  refine alike_get fun pager hserves => ?_
  have hwalk : names + 2 ≤ pager.walkLimit := Nat.le_trans h.limit (srv.limit_le hserves)
  refine (alike_checkPage_root h hp hlimit (by omega)).bind fun out hout => ?_
  obtain ⟨n, hlead⟩ := hout
  refine (h.reads_demand _ _ _).alike.bind fun _ _ => ?_
  refine (h.reads_demand _ _ _).alike.bind fun _ _ => ?_
  refine Alike.bind (Q := fun _ => True) ?_ fun first _ => (reads_checkChain_any h _ _).alike
  -- once all pages went through, the way down first children is shorter than there are pages
  obtain ⟨refs, hlen, hnd, hrefs⟩ := hlead.exists_way
  have hcount : refs.length ≤ names := h.count refs hnd fun r hr => by
    obtain ⟨_, _, hlead⟩ := hrefs r hr
    exact hlead.isSome
  refine alike_get fun pager' hserves' => ?_
  have hwalk' : names + 2 ≤ pager'.walkLimit := Nat.le_trans h.limit (srv.limit_le hserves')
  unfold firstLeafWithin
  refine (hlead.alike_descendFirst h (by omega) (by omega)).bind fun out _ => ?_
  exact ((h.resolve out.1).mono fun _ _ => trivial).alike

end Tree

variable [Std.TransOrd K] {tree : Tree K I} {pager : Pager K I}

/-- Whatever pages there are, verification comes to an end; and every limit on the length of a way down that exceeds
the number of pages by three leads to the same outcome, so that none of them is ever reached. It answers or fails if
all pages can be passed: only at a page that cannot it aborts. -/
theorem verify_ends [GuardedCodec K] [GuardedCodec I] (h : pager.Stocked) (hsize : 4 ≤ tree.config.pageSize) :
    tree.verify.answer pager ≠ .error .endless
    ∧ (pager.Passable → tree.verify.answer pager ≠ .error .aborted)
    ∧ ∀ limit, pager.names + 3 ≤ limit → tree.verifyWithin limit pager = tree.verify pager := by
  obtain ⟨srv, htotal, hserves, hpassable⟩ := h.exists_service
  have halike : ∀ limit, pager.names + 3 ≤ limit → srv.Ended (fun _ => True) (tree.verifyWithin limit pager)
      ∧ tree.verify pager = tree.verifyWithin limit pager :=
    fun limit hlimit => Tree.alike_verify htotal hsize hlimit pager hserves
  obtain ⟨hended, hsame⟩ := halike _ (Nat.le_refl _)
  rw [← hsame] at hended
  obtain ⟨hends, hblocked⟩ := hended.answer
  refine ⟨hends, fun hpass haborts => ?_, fun limit hlimit => (halike limit hlimit).2.symm⟩
  obtain ⟨ref, page, hpage, hnot⟩ := hblocked haborts
  exact hnot (hpassable hpass ref page hpage)

/-- A leaf that is linked to itself, below a root that is its own second child. -/
def Index.overItself : Index UInt64 UInt64 where
  tree := { config := { pageSize := 4 }, measures := [], keyOf := id, root := ⟨1⟩, rightmost := ⟨0⟩, len := 2 }
  pager := .ofNodes [(.leaf ⟨[(1, 1), (2, 2)], some ⟨0⟩⟩, []), (.inner ⟨[3], [⟨0⟩, ⟨1⟩]⟩, [])]
    ⟨4, false, ⟨1⟩, ⟨0⟩, 2, 0⟩

/-- The root is passed a second time, and the leaf that is its first child is not. -/
theorem verify_ends_overItself : Index.overItself.pager.Stocked ∧ 4 ≤ Index.overItself.tree.config.pageSize
    ∧ Index.overItself.pager.Passable
    ∧ Index.overItself.tree.verify.answer Index.overItself.pager
      = .error (.failed (.corruption ⟨0⟩ (.keyRange "1")))
    ∧ Index.overItself.tree.verify.answer Index.overItself.pager ≠ .error .aborted
    ∧ Index.overItself.tree.verifyWithin 5 Index.overItself.pager
      = Index.overItself.tree.verify Index.overItself.pager := by
  have hstocked : Index.overItself.pager.Stocked := .resident rfl
  have hsize : 4 ≤ Index.overItself.tree.config.pageSize := by decide
  have hpassable : Index.overItself.pager.Passable := by
    rintro store hb
    cases hb
    decide
  have hnames : Index.overItself.pager.names = 2 := by decide
  have hanswer : Index.overItself.tree.verify.answer Index.overItself.pager
      = .error (.failed (.corruption ⟨0⟩ (.keyRange "1"))) := by
    decide +kernel
  refine ⟨hstocked, hsize, hpassable, hanswer, ?_⟩
  exact (verify_ends hstocked hsize).2.imp (fun hanswers => hanswers hpassable) fun hsame => hsame 5 (by rw [hnames])

/-- Pages of the right shape, some of which are listed at several places, behind a gate that lets none be given up.
The pages `8` and `10` have the root among their children. -/
def Index.overShared : Index UInt64 UInt64 where
  tree := { config := { pageSize := 6 }, measures := [], keyOf := id, root := ⟨11⟩, rightmost := ⟨11⟩, len := 7 }
  pager :=
    let leaf (keys : List UInt64) : Node UInt64 UInt64 × List Int64 :=
      (.leaf ⟨keys.map fun key => (key, key), none⟩, [])
    let inner (keys children : List UInt64) : Node UInt64 UInt64 × List Int64 :=
      (.inner ⟨keys, children.map PageRef.mk⟩, [])
    let pages := [
      leaf [900, 910, 920], leaf [15], leaf [1, 2, 3], leaf [4, 5, 6], inner [] [1], inner [] [0],
      inner [100, 110, 120, 130] [4, 5, 0, 0, 0], inner [] [2],
      inner [100, 110, 120, 130, 140, 150] [7, 5, 5, 11, 0, 0, 0], inner [] [3],
      inner [100, 110, 120, 130, 140, 150] [9, 5, 5, 11, 0, 0, 0],
      inner [10, 20, 30, 40, 50, 60] [8, 6, 0, 0, 10, 0, 0]]
    { (Pager.ofNodes pages ⟨6, false, ⟨11⟩, ⟨11⟩, 7, 0⟩) with gate := { Gate.wide with release := .quota 0 } }

/-- What is left of it once its items were removed. -/
def Index.drained : Index UInt64 UInt64 :=
  [15, 1, 2, 3, 4, 5, 6].foldl (fun index key => (Index.remove key).after index) Index.overShared

/-- Page `5` is drained by the first removal and is still listed. Every later merge with it takes a separator over, but
no child. In the end the root has separators only, and all checks go through but there is no way down to a leaf. -/
theorem verify_aborts_drained : Branching Index.overShared.pager.page? ∧ Index.drained.pager.Stocked
    ∧ 4 ≤ Index.drained.tree.config.pageSize
    ∧ Index.drained.pager.page? Index.drained.tree.root = some ⟨⟨11⟩, [], .inner ⟨[40, 50, 60], []⟩⟩
    ∧ Index.drained.tree.verify.answer Index.drained.pager = .error .aborted
    ∧ ¬ AnswersOrFails (fun _ => True) (Index.drained.tree.verify.answer Index.drained.pager) := by
  have haborts : Index.drained.tree.verify.answer Index.drained.pager = .error .aborted := by decide +kernel
  refine ⟨branching_of_bindings rfl (by decide), ?_, by decide +kernel, by decide +kernel, haborts, ?_⟩
  · exact Pager.stocked_of_isWritable (by decide +kernel)
  · rw [haborts]
    exact id

end PagedIndex
