import PagedIndex.Proofs.Standing
import PagedIndex.Tree.Lookup
import PagedIndex.Tree.Outline
import PagedIndex.Tree.Scan
import PagedIndex.Tree.Verify
import PagedIndex.Tree.Write

/-!
# Caches are transparent

Of two pagers over the same image one may keep more pages in memory than the other, and pages that the other does not
keep; nobody who calls them can tell (`Pager.transparent`). A computation is `Determined` if its outcome, and what is
seen of the state it leaves, follow from what is seen of the state in which it was started. All calls to a pager over
an image are, with the cache out of sight, and so is everything that is put together from them.
-/

namespace PagedIndex

namespace Action

variable {ε σ α β κ γ : Type}

/-- `V k c s` says of a state that `k` is seen of it and `c` is not. The outcome of the computation, and what is seen of
the state it leaves, do not depend on what is not seen. -/
def Determined (V : κ → γ → σ → Prop) (x : Action ε σ α) : Prop :=
  ∀ k, ∃ r k', ∀ c s, V k c s → Gives x s r (V k' c)

variable {V : κ → γ → σ → Prop}

theorem determined_pure (a : α) : Determined V (pure a : Action ε σ α) :=
  fun k => ⟨.ok a, k, fun _ _ hs => gives_pure hs⟩

theorem determined_throw (halt : Halt ε) : Determined V (throw halt : Action ε σ α) :=
  fun k => ⟨.error halt, k, fun _ _ hs => gives_throw hs⟩

theorem determined_fail (e : ε) : Determined V (fail e : Action ε σ α) := determined_throw _

/-- What would come after a failure does not matter. -/
theorem determined_fail_bind (e : ε) (f : α → Action ε σ β) : Determined V (fail e >>= f) :=
  determined_throw (.failed e)

theorem determined_circle : Determined V (circle : Action ε σ α) := determined_throw _

theorem determined_ofExcept (r : Except ε α) : Determined V (ofExcept r) := by
  cases r with
  | ok a => exact determined_pure a
  | error e => exact determined_fail e

theorem determined_orAbort (o : Option α) : Determined V (orAbort o : Action ε σ α) := by
  cases o with
  | some a => exact determined_pure a
  | none => exact determined_throw _

theorem Determined.bind {x : Action ε σ α} {f : α → Action ε σ β} (hx : Determined V x)
    (hf : ∀ a, Determined V (f a)) : Determined V (x >>= f) := by
  intro k
  obtain ⟨r, k', hr⟩ := hx k
  cases r with
  | error halt => exact ⟨.error halt, k', fun c s hs => (hr c s hs).bind_error f⟩
  | ok a =>
    obtain ⟨r', k'', hr'⟩ := hf a k'
    exact ⟨r', k'', fun c s hs => (hr c s hs).bind_ok (hr' c)⟩

/-- Whoever looks at the state uses only what is seen of it. -/
theorem determined_get {f : σ → Action ε σ α} (hf : ∀ s, Determined V (f s))
    (hseen : ∀ {k c c' s s'}, V k c s → V k c' s' → f s = f s') : Determined V (get >>= f) := by
  intro k
  by_cases hexists : ∃ c s, V k c s
  · obtain ⟨c₀, s₀, h₀⟩ := hexists
    obtain ⟨r, k', hr⟩ := hf s₀ k
    refine ⟨r, k', fun c s hs => (runs_get s).gives_bind ?_⟩
    rw [hseen hs h₀]
    exact hr c s hs
  · -- where there is no such state any outcome will do
    exact ⟨.error .endless, k, fun c s hs => absurd ⟨c, s, hs⟩ hexists⟩

theorem Determined.attempt {x : Action ε σ α} (hx : Determined V x) : Determined V (attempt x) := by
  intro k
  obtain ⟨r, k', hr⟩ := hx k
  exact ⟨_, k', fun c s hs => (hr c s hs).attempt⟩

theorem Determined.mapError {ε' : Type} {x : Action ε σ α} (hx : Determined V x) (f : ε → ε') :
    Determined V (Action.mapError f x) := by
  intro k
  obtain ⟨r, k', hr⟩ := hx k
  exact ⟨_, k', fun c s hs => (hr c s hs).mapError f⟩

theorem determined_mapM {f : α → Action ε σ β} (hf : ∀ a, Determined V (f a)) (as : List α) :
    Determined V (as.mapM f) := by
  induction as with
  | nil =>
    rw [List.mapM_nil]
    exact determined_pure []
  | cons a as ih =>
    rw [List.mapM_cons]
    exact (hf a).bind fun _ => ih.bind fun _ => determined_pure _

/-- Two states of which the same is seen are answered alike, and the same is seen afterwards. -/
theorem Determined.alike {x : Action ε σ α} (hx : Determined V x) {k : κ} {c c' : γ} {s s' : σ} (hs : V k c s)
    (hs' : V k c' s') : x.answer s = x.answer s' ∧ ∃ k', V k' c (x.after s) ∧ V k' c' (x.after s') := by
  obtain ⟨r, k', hr⟩ := hx k
  obtain ⟨hanswer, hafter⟩ := hr c s hs
  obtain ⟨hanswer', hafter'⟩ := hr c' s' hs'
  exact ⟨hanswer.trans hanswer'.symm, k', hafter, hafter'⟩

end Action

open PagedIndex.Action

variable {K I : Type} [IndexKey K] [Codec I] {α β : Type} {image : Image}

/-- The computation is determined by the image and by how far the pager has come. -/
abbrev Image.Determines (image : Image) (x : Paging K I α) : Prop :=
  Determined (fun life capacity pager => Pager.Stands image capacity life pager) x

namespace Pager

theorem determines_resolve (ref : PageRef) : image.Determines (Pager.resolve ref : Paging K I (Page K I)) :=
  fun life => ⟨_, life, fun _ _ h => h.resolve_gives ref⟩

theorem determines_start : image.Determines (Pager.start : Paging K I (Option Descriptor)) :=
  fun life => ⟨_, image.lifeAfterStart life, fun _ _ h => h.start_gives⟩

theorem determines_mightContain (key : K) : image.Determines (Pager.mightContain key : Paging K I Bool) :=
  fun life => ⟨_, life, fun _ _ h => h.mightContain_gives key⟩

theorem determines_dispose : image.Determines (modify Pager.dispose : Paging K I Unit) :=
  fun _ => ⟨.ok (), .disposed, fun _ _ h => (runs_modify _ _).gives h.dispose⟩

/-- How long a walk may be is all that is read from the pager itself. -/
theorem determines_get {f : Pager K I → Paging K I α} (hf : ∀ pager, image.Determines (f pager))
    (hlimit : ∀ pager pager', pager.walkLimit = pager'.walkLimit → f pager = f pager') :
    image.Determines (get >>= f) :=
  determined_get hf fun h h' => hlimit _ _ (h.walkLimit_eq.trans h'.walkLimit_eq.symm)

end Pager

namespace Tree

open Pager

/-! ## Walks -/

theorem determines_firstChild? (ref : PageRef) : image.Determines (firstChild? (K := K) (I := I) ref) := by
  refine (determines_resolve ref).bind fun page => ?_
  cases page.node with
  | leaf l => exact determined_pure _
  | inner inner => exact (determined_orAbort _).bind fun _ => determined_pure _

theorem determines_descendFirst (limit : Nat) (ref : PageRef) :
    image.Determines (descendFirst (K := K) (I := I) limit ref) := by
  induction limit generalizing ref with
  | zero => exact determined_circle
  | succ limit ih =>
    refine (determines_firstChild? ref).bind fun child => ?_
    cases child with
    | none => exact determined_pure _
    | some child => exact (ih child).bind fun _ => determined_pure _

theorem determines_firstLeaf (tree : Tree K I) : image.Determines tree.firstLeaf := by
  refine determines_get (fun pager => ?_) fun _ _ h => by simp only [h]
  exact (determines_descendFirst _ tree.root).bind fun _ => determines_resolve _

theorem determines_descendLast (limit : Nat) (ref : PageRef) :
    image.Determines (descendLast (K := K) (I := I) limit ref) := by
  induction limit generalizing ref with
  | zero => exact determined_circle
  | succ limit ih =>
    refine (determines_resolve ref).bind fun page => ?_
    cases page.children.getLast? with
    | none => exact determined_pure _
    | some child => exact ih child

theorem determines_lastLeafBelow (ref : PageRef) : image.Determines (lastLeafBelow (K := K) (I := I) ref) :=
  determines_get (fun _ => determines_descendLast _ ref) fun _ _ h => by simp only [h]

theorem determines_locateFrom (key : K) (limit : Nat) (ref : PageRef) (left : Option PageRef) :
    image.Determines (locateFrom (I := I) key limit ref left) := by
  induction limit generalizing ref left with
  | zero => exact determined_circle
  | succ limit ih =>
    refine (determines_resolve ref).bind fun page => ?_
    cases page.node with
    | leaf l => exact determined_pure _
    | inner inner =>
      dsimp only
      cases (inner.seek key).position with
      | zero => exact (determined_orAbort _).bind fun child => ih child left
      | succ before => exact (determined_orAbort _).bind fun _ => (determined_orAbort _).bind fun child => ih child _

theorem determines_locate (tree : Tree K I) (key : K) : image.Determines (tree.locate key) :=
  determines_get (fun _ => determines_locateFrom key _ tree.root none) fun _ _ h => by simp only [h]

theorem determines_leafFor (tree : Tree K I) (key : K) : image.Determines (tree.leafFor key) :=
  (determines_locate tree key).bind fun _ => determined_pure _

theorem determines_leafBefore? (tree : Tree K I) (key : K) : image.Determines (tree.leafBefore? key) := by
  refine (determines_locate tree key).bind fun found => ?_
  cases found.2 with
  | none => exact determined_pure _
  | some subtree => exact (determines_lastLeafBelow subtree).bind fun _ => determined_pure _

/-! ## Look-ups -/

theorem determines_openStored (config : Config) (measures : MeasureSet I) (keyOf : I → K) :
    image.Determines (openStored config measures keyOf) := by
  refine determines_start.bind fun found => ?_
  cases found with
  | none => exact determined_fail _
  | some descriptor =>
    dsimp only
    split
    · exact determined_fail_bind _ _
    · exact ((determined_ofExcept _).mapError _).bind fun _ => determined_pure _

theorem determines_contains (tree : Tree K I) (key : K) : image.Determines (tree.contains key) := by
  refine (determines_mightContain key).bind fun may => ?_
  split
  · exact determined_pure _
  · exact (determines_leafFor tree key).bind fun page => (determined_ofExcept _).bind fun _ => determined_pure _

theorem determines_find? (tree : Tree K I) (key : K) : image.Determines (tree.find? key) := by
  refine (determines_mightContain key).bind fun may => ?_
  split
  · exact determined_pure _
  · exact (determines_leafFor tree key).bind fun page => (determined_ofExcept _).bind fun _ => determined_pure _

theorem determines_getItem (tree : Tree K I) (key : K) : image.Determines (tree.get key) := by
  refine (determines_find? tree key).bind fun item => ?_
  cases item with
  | some item => exact determined_pure _
  | none => exact determined_fail _

theorem determines_height (tree : Tree K I) : image.Determines tree.height := by
  refine determines_get (fun pager => ?_) fun _ _ h => by simp only [h]
  exact (determines_descendFirst _ tree.root).bind fun _ => determined_pure _

theorem determines_measureValues (tree : Tree K I) : image.Determines tree.measureValues :=
  (determines_resolve tree.root).bind fun _ => determined_pure _

theorem determines_measure? (tree : Tree K I) (name : String) : image.Determines (tree.measure? name) := by
  unfold measure?
  cases tree.measures.position? name with
  | none => exact determined_pure _
  | some position => exact (determines_measureValues tree).bind fun _ => determined_pure _

/-! ## Rays and scans -/

theorem determines_seekUp (tree : Tree K I) (key : K) : image.Determines (tree.seekUp key) := by
  refine (determines_leafFor tree key).bind fun page => (determined_ofExcept _).bind fun leaf => ?_
  dsimp only
  split
  · exact determined_pure _
  · split
    · cases leaf.right with
      | some right => exact determined_pure _
      | none => exact determined_pure _
    · split <;> exact determined_pure _

theorem determines_seekDown (tree : Tree K I) (key : K) : image.Determines (tree.seekDown key) := by
  refine (determines_locate tree key).bind fun found => (determined_ofExcept _).bind fun leaf => ?_
  dsimp only
  split
  · exact determined_pure _
  · split
    · exact determined_pure _
    · exact determined_pure _
    · refine (determines_lastLeafBelow _).bind fun before => (determined_ofExcept _).bind fun last => ?_
      cases last.size with
      | zero => exact determined_pure _
      | succ slot => exact determined_pure _

theorem determines_seekRay (tree : Tree K I) (ray : Ray K) : image.Determines (tree.seekRay ray) := by
  unfold seekRay
  split
  · exact determines_seekUp tree _
  · exact determines_seekDown tree _
  · exact (determines_firstLeaf tree).bind fun _ => (determined_ofExcept _).bind fun _ => determined_pure _
  · exact (determines_firstLeaf tree).bind fun _ => determined_pure _
  · exact (determines_resolve _).bind fun _ => (determined_ofExcept _).bind fun _ => determined_pure _
  · refine (determines_resolve _).bind fun _ => (determined_ofExcept _).bind fun leaf => ?_
    cases leaf.size with
    | zero => exact determined_pure _
    | succ last => exact determined_pure _

theorem determines_ofRay (tree : Tree K I) (ray : Ray K) : image.Determines (Scan.ofRay tree ray) := by
  refine (determines_seekRay tree ray).bind fun found => ?_
  split
  · exact determined_pure _
  · exact (determines_resolve _).bind fun _ => (determined_ofExcept _).bind fun _ => determined_pure _

theorem determines_nextLeaf? (tree : Tree K I) (scan : Scan K I) : image.Determines (scan.nextLeaf? tree) := by
  unfold Scan.nextLeaf?
  cases scan.continuation with
  | finished => exact determined_pure _
  | linked ref => exact (determines_resolve ref).bind fun _ => (determined_ofExcept _).bind fun _ => determined_pure _
  | before key =>
    refine (determines_leafBefore? tree key).bind fun found => ?_
    cases found with
    | none => exact determined_pure _
    | some page => exact (determined_ofExcept _).bind fun _ => determined_pure _

theorem determines_advance (tree : Tree K I) (limit : Nat) (scan : Scan K I) :
    image.Determines (scan.advance tree limit) := by
  induction limit generalizing scan with
  | zero =>
    obtain ⟨direction, buffer, continuation⟩ := scan
    cases buffer with
    | nil => exact determined_circle
    | cons entry rest => exact determined_pure _
  | succ limit ih =>
    obtain ⟨direction, buffer, continuation⟩ := scan
    cases buffer with
    | nil =>
      refine (determines_nextLeaf? tree _).attempt.bind fun outcome => ?_
      cases outcome with
      | error e => exact determined_pure _
      | ok found =>
        cases found with
        | none => exact determined_pure _
        | some scan => exact ih scan
    | cons entry rest => exact determined_pure _

theorem determines_next (tree : Tree K I) (scan : Scan K I) : image.Determines (scan.next tree) :=
  determines_get (fun _ => determines_advance tree _ scan) fun _ _ h => by simp only [h]

/-! ## Whole trees -/

theorem determines_outlineBelow (levels : Nat) (ref : PageRef) :
    image.Determines (outlineBelow (K := K) (I := I) levels ref) := by
  induction levels generalizing ref with
  | zero => exact determined_pure _
  | succ levels ih =>
    refine (determines_resolve ref).attempt.bind fun outcome => ?_
    cases outcome with
    | error e => exact determined_pure _
    | ok page =>
      dsimp only
      cases page.node with
      | leaf l => exact determined_pure _
      | inner inner => exact (determined_mapM ih inner.children).bind fun _ => determined_pure _

theorem determines_demand (page : PageRef) (sound : Bool) (flaw : Flaw) :
    image.Determines (demand (K := K) (I := I) page sound flaw) := by
  unfold demand
  split
  · exact determined_pure _
  · exact determined_fail _

theorem determines_checkSize (tree : Tree K I) (ref : PageRef) (page : Page K I) :
    image.Determines (tree.checkSize ref page) :=
  (determines_demand _ _ _).bind fun _ => (determines_demand _ _ _).bind fun _ => determines_demand _ _ _

theorem determines_checkDepth (ref : PageRef) (depth : Nat) (seen : Seen) :
    image.Determines (checkDepth (K := K) (I := I) ref depth seen) := by
  unfold checkDepth
  cases seen.depth with
  | some others => exact (determines_demand _ _ _).bind fun _ => determined_pure _
  | none => exact determined_pure _

theorem determines_checkSeparators (tree : Tree K I) (ref : PageRef) (inner : Inner K) (lower upper : Option K) :
    image.Determines (tree.checkSeparators ref inner lower upper) := by
  refine (determines_demand _ _ _).bind fun _ => (determines_demand _ _ _).bind fun _ => ?_
  cases inner.keys.find? fun key => !inRange lower upper key with
  | some key => exact determined_fail _
  | none => exact determined_pure _

theorem determines_foldResolved (tree : Tree K I) (refs : List PageRef) :
    image.Determines (tree.foldResolved refs) :=
  (determined_mapM (fun ref => determines_resolve ref) refs).bind fun _ => determined_pure _

theorem determines_checkChildren {check : PageRef → Option K → Option K → Seen → Paging K I (Nat × Seen)}
    (hcheck : ∀ ref lower upper seen, image.Determines (check ref lower upper seen)) (upper lower : Option K)
    (keys : List K) (children : List PageRef) (seen : Seen) :
    image.Determines (checkChildren check upper lower keys children seen) := by
  induction children generalizing lower keys seen with
  | nil =>
    unfold checkChildren
    exact determined_pure _
  | cons child children ih =>
    cases keys with
    | nil =>
      unfold checkChildren
      refine (hcheck _ _ _ _).bind fun _ => ?_
      cases children with
      | nil => exact determined_pure _
      | cons surplus children => exact determined_throw _
    | cons key keys =>
      unfold checkChildren
      exact (hcheck _ _ _ _).bind fun _ => (ih _ _ _).bind fun _ => determined_pure _

theorem determines_checkEntries (tree : Tree K I) (ref : PageRef) (measures : List Int64) (leaf : Leaf K I)
    (lower upper : Option K) : image.Determines (tree.checkEntries ref measures leaf lower upper) := by
  refine (determines_demand _ _ _).bind fun _ => ?_
  cases leaf.keys.find? fun key => !inRange lower upper key with
  | some key => exact determined_fail_bind _ _
  | none =>
    cases leaf.entries.find? fun entry => compare (tree.keyOf entry.2) entry.1 != .eq with
    | some entry => exact determined_fail_bind _ _
    | none => exact determines_demand _ _ _

theorem determines_checkPage (tree : Tree K I) (limit depth : Nat) (ref : PageRef) (lower upper : Option K)
    (seen : Seen) : image.Determines (tree.checkPage limit depth ref lower upper seen) := by
  induction limit generalizing depth ref lower upper seen with
  | zero => exact determined_circle
  | succ limit ih =>
    unfold checkPage
    refine (determines_resolve ref).bind fun page => (determines_checkSize tree ref page).bind fun _ => ?_
    cases page.node with
    | leaf l =>
      refine (determines_checkEntries _ _ _ _ _ _).bind fun _ => ?_
      exact (determines_checkDepth _ _ _).bind fun _ => determined_pure _
    | inner inner =>
      refine (determines_checkSeparators _ _ _ _ _).bind fun _ => (determines_foldResolved _ _).bind fun _ => ?_
      refine (determines_demand _ _ _).bind fun _ => ?_
      exact determines_checkChildren (fun _ _ _ _ => ih _ _ _ _ _) _ _ _ _ _

theorem determines_checkChain (leaves : List PageRef) (next : Option PageRef) :
    image.Determines (checkChain (K := K) (I := I) leaves next) := by
  induction leaves generalizing next with
  | nil =>
    cases next with
    | none => exact determined_pure _
    | some extra => exact determined_fail _
  | cons expected leaves ih =>
    unfold checkChain
    refine (determines_demand _ _ _).bind fun _ => (determines_resolve expected).bind fun _ => ?_
    exact (determined_ofExcept _).bind fun _ => ih _

theorem determines_verify (tree : Tree K I) : image.Determines tree.verify := by
  refine determines_get (fun pager => ?_) fun _ _ h => by simp only [h]
  refine (determines_checkPage _ _ _ _ _ _ _).bind fun out => (determines_demand _ _ _).bind fun _ => ?_
  refine (determines_demand _ _ _).bind fun _ => (determines_firstLeaf tree).bind fun first => ?_
  exact determines_checkChain _ _

/-! ## Writing -/

/-- The computation is determined by the image, by how far the pager has come, and by the writer. -/
abbrev DeterminedBy (image : Image) (x : Writing K I α) : Prop :=
  Determined (fun (seen : Lifecycle × ImageWriter) capacity state =>
    Pager.Stands image capacity seen.1 state.1 ∧ state.2 = seen.2) x

theorem determined_reading {x : Paging K I α} (hx : image.Determines x) : DeterminedBy image (reading x) := by
  rintro ⟨life, writer⟩
  obtain ⟨r, life', hr⟩ := hx life
  refine ⟨r, (life', writer), fun capacity state hs => (Gives.zoom (hr capacity state.1 hs.1)).mono ?_⟩
  rintro _ ⟨pager, hpager, rfl⟩
  exact ⟨hpager, hs.2⟩

/-- Writing has nothing to do with the pager. -/
theorem determined_writing (x : Action IndexError ImageWriter α) :
    DeterminedBy image (writing x : Writing K I α) := by
  -- what comes out depends on the writer alone, and that is part of what is seen
  rintro ⟨life, writer⟩
  refine ⟨x.answer writer, (life, x.after writer), fun capacity state hs => ?_⟩
  have hx : Gives x state.2 (x.answer writer) (· = x.after writer) := by
    rw [show state.2 = writer from hs.2]
    exact ⟨rfl, rfl⟩
  refine (Gives.zoom hx).mono ?_
  rintro _ ⟨writer', rfl, rfl⟩
  exact ⟨hs.1, rfl⟩

theorem determines_storedLeaves (limit : Nat) (ref : PageRef) (filter : Option BloomFilter) :
    image.Determines (storedLeaves (K := K) (I := I) limit ref filter) := by
  induction limit generalizing ref filter with
  | zero => exact determined_circle
  | succ limit ih =>
    refine (determines_resolve (K := K) (I := I) ref).bind fun page => (determined_ofExcept _).bind fun leaf => ?_
    dsimp only
    cases leaf.right with
    | none => exact determined_pure _
    | some right => exact (ih right _).bind fun _ => determined_pure _

theorem determined_placeInner (offsets : Table PageRef PageRef) (limit : Nat) (ref : PageRef) :
    DeterminedBy image (placeInner (K := K) (I := I) offsets limit ref) := by
  induction limit generalizing ref with
  | zero => exact determined_circle
  | succ limit ih =>
    refine (determined_reading (determines_resolve (K := K) (I := I) ref)).bind fun page => ?_
    cases page.node with
    | leaf l =>
      dsimp only
      cases offsets.get? ref with
      | some offset => exact determined_pure _
      | none => exact determined_fail _
    | inner inner =>
      refine (determined_mapM ih inner.children).bind fun _ => (determined_orAbort _).bind fun _ => ?_
      exact determined_writing _

theorem determined_write (tree : Tree K I) : DeterminedBy image tree.write := by
  -- how long walks may be is the only thing that is asked of the pager itself
  refine determined_get (fun state => ?_) fun h h' => by simp only [h.1.walkLimit_eq, h'.1.walkLimit_eq]
  refine (determined_reading (determines_firstLeaf tree)).bind fun first => ?_
  refine (determined_reading (determines_storedLeaves _ _ _)).bind fun stored => ?_
  refine (determined_writing _).bind fun offsets => (determined_placeInner _ _ _).bind fun root => ?_
  dsimp only
  cases offsets.get? tree.rightmost with
  | none => exact determined_fail _
  | some rightmost => exact (determined_writing _).bind fun _ => determined_pure _

/-- Writes a tree and hands over, as values, how that ended and what it has made of the writer. -/
def written (tree : Tree K I) (writer : ImageWriter) :
    Paging K I (Except (Halt IndexError) Descriptor × ImageWriter) := fun pager =>
  let state := tree.write.after (pager, writer)
  .ok (tree.write.answer (pager, writer), state.2) state.1

theorem determines_written (tree : Tree K I) (writer : ImageWriter) : image.Determines (tree.written writer) := by
  intro life
  have hwrite : DeterminedBy image tree.write := determined_write tree
  obtain ⟨r, ⟨life', writer'⟩, hr⟩ := hwrite (life, writer)
  refine ⟨.ok (r, writer'), life', fun capacity pager h => ?_⟩
  obtain ⟨hanswer, hpager, hwriter⟩ := hr capacity (pager, writer) ⟨h, rfl⟩
  refine ⟨?_, hpager⟩
  show Except.ok (tree.write.answer (pager, writer), (tree.write.after (pager, writer)).2) = _
  rw [hanswer, hwriter]

end Tree

/-! ## Everything that is asked -/

/-- A question about a tree, by the type of its answer: to open it, to look something up, to follow a ray, to check it,
to list it or to write it. -/
inductive Query (K I : Type) : Type → Type where
  | openStored (config : Config) (measures : MeasureSet I) (keyOf : I → K) : Query K I (Tree K I)
  | contains (tree : Tree K I) (key : K) : Query K I Bool
  | find? (tree : Tree K I) (key : K) : Query K I (Option I)
  | get (tree : Tree K I) (key : K) : Query K I I
  | height (tree : Tree K I) : Query K I Nat
  | measureValues (tree : Tree K I) : Query K I (List Int64)
  | measure? (tree : Tree K I) (name : String) : Query K I (Option Int64)
  | seekRay (tree : Tree K I) (ray : Ray K) : Query K I (Found Cursor)
  | scan (tree : Tree K I) (ray : Ray K) : Query K I (Scan K I)
  | next (tree : Tree K I) (rest : Scan K I) : Query K I (Option (Except IndexError (K × I)) × Scan K I)
  | verify (tree : Tree K I) : Query K I Unit
  | outline (tree : Tree K I) (levels : Nat) : Query K I (Outline K I)
  | written (tree : Tree K I) (writer : ImageWriter) :
    Query K I (Except (Halt IndexError) Descriptor × ImageWriter)

/-- Asks the question. -/
def Query.perform : Query K I α → Paging K I α
  | openStored config measures keyOf => Tree.openStored config measures keyOf
  | contains tree key => tree.contains key
  | find? tree key => tree.find? key
  | get tree key => tree.get key
  | height tree => tree.height
  | measureValues tree => tree.measureValues
  | measure? tree name => tree.measure? name
  | seekRay tree ray => tree.seekRay ray
  | scan tree ray => Scan.ofRay tree ray
  | next tree rest => rest.next tree
  | verify tree => tree.verify
  | outline tree levels => tree.outline levels
  | written tree writer => tree.written writer

/-- A call to a pager, or a question about a tree behind it. -/
inductive ReadCall (K I α : Type) where
  | request (call : Request K I α)
  | query (call : Query K I α)

/-- Makes the call. -/
def ReadCall.perform : ReadCall K I α → Paging K I α
  | request call => call.perform
  | query call => call.perform

theorem Request.determines (request : Request K I α) : image.Determines request.perform := by
  cases request with
  | start => exact Pager.determines_start
  | resolve ref => exact Pager.determines_resolve ref
  | mightContain key => exact Pager.determines_mightContain key
  | dispose => exact Pager.determines_dispose

theorem Query.determines (query : Query K I α) : image.Determines query.perform := by
  cases query with
  | openStored config measures keyOf => exact Tree.determines_openStored config measures keyOf
  | contains tree key => exact tree.determines_contains key
  | find? tree key => exact tree.determines_find? key
  | get tree key => exact tree.determines_getItem key
  | height tree => exact tree.determines_height
  | measureValues tree => exact tree.determines_measureValues
  | measure? tree name => exact tree.determines_measure? name
  | seekRay tree ray => exact tree.determines_seekRay ray
  | scan tree ray => exact tree.determines_ofRay ray
  | next tree rest => exact tree.determines_next rest
  | verify tree => exact tree.determines_verify
  | outline tree levels => exact Tree.determines_outlineBelow levels tree.root
  | written tree writer => exact tree.determines_written writer

theorem ReadCall.determines (call : ReadCall K I α) : image.Determines call.perform := by
  cases call with
  | request call => exact call.determines
  | query call => exact call.determines

namespace Pager

variable {life : Lifecycle} {c c' : Nat} {pager pager' : Pager K I}

/-- Two pagers that stand alike still do after the same calls. -/
theorem Stands.afterEach_alike (h : pager.Stands image c life) (h' : pager'.Stands image c' life)
    (calls : List (Σ α, ReadCall K I α)) : ∃ life', (pager.afterEach ReadCall.perform calls).Stands image c life'
      ∧ (pager'.afterEach ReadCall.perform calls).Stands image c' life' := by
  -- on the calls, both pagers having come equally far before each
  induction calls generalizing pager pager' life with
  | nil => exact ⟨life, h, h'⟩
  | cons call calls ih =>
    obtain ⟨-, _, hstep, hstep'⟩ := (ReadCall.determines call.2).alike h h'
    exact ih hstep hstep'

/-- Whatever the capacities of their caches, two pagers over the same bytes answer every call and every question about
a tree alike, after any calls and questions before. There are never more pages in a cache than its capacity, and each
of them is what reading and decoding gives at its name. -/
theorem transparent (image : Image) (c c' : Nat) (calls : List (Σ α, ReadCall K I α)) :
    (∀ {α : Type} (call : ReadCall K I α), call.perform.answer ((ofImage image c).afterEach ReadCall.perform calls)
      = call.perform.answer ((ofImage image c').afterEach ReadCall.perform calls))
    ∧ ∃ store, ((ofImage image c).afterEach ReadCall.perform calls).backing = .imaged store
      ∧ store.cache.size ≤ c
      ∧ ∀ ref page, store.cache.entries.get? ref = some page → ref.isDefined ∧ image.fetch ref = .ok page := by
  obtain ⟨life, h, h'⟩ := (stands_ofImage image c).afterEach_alike (stands_ofImage image c') calls
  refine ⟨fun call => ((ReadCall.determines call).alike h h').1, ?_⟩
  obtain ⟨store, hb, hstore⟩ := h.backing
  refine ⟨store, hb, ?_, fun ref page hkept => ?_⟩
  · rw [PageCache.size, hstore.bounded.size_eq, ← hstore.capacity]
    exact hstore.bounded.size_le
  · have hpage := hstore.kept ref page hkept
    have hd := (Image.page?_eq_some.mp hpage).2.1
    exact ⟨hd, (Image.fetch_eq_ok hd).mpr hpage⟩

end Pager

end PagedIndex
