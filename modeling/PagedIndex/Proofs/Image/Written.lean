import PagedIndex.Proofs.Image.Layout
import PagedIndex.Proofs.Image.Room
import PagedIndex.Proofs.Serving
import PagedIndex.Proofs.Subtree.Checks
import PagedIndex.Tree.Write

/-!
# A tree is written

Its pages, and then what seals the image, are blocks (`Tree.blocks`) that go into a sink which may run out of room.
Either all of them do, behind whatever was there before, or the writer stops inside one of them (`Tree.puts_write`).
-/

namespace PagedIndex

/-! ## What a writer takes in -/

namespace ImageWriter

/-- The writer has taken these bytes in, has room for whatever comes, and reports pages where they lie. -/
structure Wrote (bytes : List UInt8) (writer : ImageWriter) : Prop where
  written : writer.sink.written = bytes
  room : writer.sink.room = none
  position : writer.position = bytes.length
  shift : writer.shift = 0

variable {bytes : List UInt8} {writer : ImageWriter}

theorem wrote_nil : Wrote [] (.ofSink .unlimited) := ⟨rfl, rfl, rfl, rfl⟩

theorem wrote_filled (bytes : List UInt8) : Wrote bytes (filled none bytes) := ⟨rfl, rfl, rfl, rfl⟩

theorem Wrote.eq (h : Wrote bytes writer) : writer = filled none bytes := by
  obtain ⟨⟨written, room⟩, position, shift⟩ := writer
  obtain ⟨hwritten, hroom, hposition, hshift⟩ := h
  dsimp only at hwritten hroom hposition hshift
  rw [hwritten, hroom, hposition, hshift]
  rfl

/-- What a writer took in is all there is to it. -/
theorem Wrote.unique {other : ImageWriter} (h : Wrote bytes writer) (hother : Wrote bytes other) : writer = other :=
  h.eq.trans hother.eq.symm

/-- A page is appended behind what is there, and named by its offset. -/
theorem Wrote.append_runs (h : Wrote bytes writer) (page : StoredPage) : ∃ writer',
    Action.Runs (append page) writer (.ofNat bytes.length) writer' ∧ Wrote (bytes ++ page.toBytes) writer' := by
  rw [h.eq]
  rcases append_outcome (Sink.fits_none bytes) page with ⟨-, hruns⟩ | ⟨_, _, hstopped, -⟩
  · exact ⟨_, hruns, wrote_filled _⟩
  · exact absurd hstopped not_stopped_none

/-- Descriptor, filter and trailer go behind what is there. -/
theorem Wrote.commit_runs (h : Wrote bytes writer) (d : Descriptor) (filter : Option BloomFilter) : ∃ writer',
    Action.Runs (commit d filter) writer (.ofNat bytes.length) writer'
      ∧ Wrote (Image.ofSealed bytes d filter).bytes writer' := by
  rw [h.eq]
  rcases commit_outcome (Sink.fits_none bytes) d filter with ⟨-, hruns⟩ | ⟨_, _, hstopped, -⟩
  · exact ⟨_, hruns, wrote_filled _⟩
  · exact absurd hstopped not_stopped_none

end ImageWriter

namespace Subtree

variable {K I : Type} [Codec K] [Codec I] {f : PageRef → PageRef} {as bs : List (Subtree K I)}

/-- What is written for some pages under other names. -/
def blocks (f : PageRef → PageRef) (us : List (Subtree K I)) : List Block :=
  us.map fun u => ⟨f u.ref, (u.rename f).stored.fields⟩

theorem blocks_append : blocks f (as ++ bs) = blocks f as ++ blocks f bs := List.map_append

theorem bytes_blocks (us : List (Subtree K I)) : Block.bytes (blocks f us) = laid f us := by
  rw [Block.bytes, blocks, List.flatMap_map]
  rfl

end Subtree

/-! ## The leaves -/

section

variable {K I : Type} {f : PageRef → PageRef} {room : Option Nat} {bytes : List UInt8}

open Subtree ImageWriter Sink

/-- Where the next leaf of a linked run is told by its own first page. -/
theorem right_eq_of_linked {r : PageRef} {m : List Int64} {l : Leaf K I} {us : List (Subtree K I)}
    (htips : ∀ u ∈ us, ∃ r m l, u = .leaf r m l) (h : Linked none ((.leaf r m l :: us).flatMap leaves)) :
    l.right = us.head?.map ref ∧ Linked none (us.flatMap leaves) := by
  rw [List.flatMap_cons, leaves_leaf, List.singleton_append] at h
  refine ⟨h.1.trans ?_, h.2⟩
  cases us with
  | nil => rfl
  | cons u us =>
    obtain ⟨r', m', l', rfl⟩ := htips u List.mem_cons_self
    rw [List.flatMap_cons, leaves_leaf]
    rfl

variable [Codec K] [Codec I]

/-- The leaves are appended, each with the offset of the next one, or the writer stops inside one of them. -/
theorem Tree.placeLeaves_outcome {us : List (Subtree K I)} (htips : ∀ u ∈ us, ∃ r m l, u = .leaf r m l)
    (hlinked : Linked none (us.flatMap leaves)) (hplaced : Placed f bytes.length us) (hfits : Fits room bytes)
    (offsets : Table PageRef PageRef) :
    (∃ offsets', Fits room (bytes ++ Block.bytes (blocks f us))
        ∧ Action.Runs (Tree.placeLeaves (us.map fun u => (u.ref, u.stored)) bytes.length offsets) (filled room bytes)
          offsets' (filled room (bytes ++ Block.bytes (blocks f us)))
        ∧ (∀ u ∈ us, offsets'.get? u.ref = some (f u.ref)) ∧ ∀ r ∉ us.map ref, offsets'.get? r = offsets.get? r)
      ∨ ∃ e writer, Stopped room bytes (blocks f us) e writer
        ∧ Action.Fails (Tree.placeLeaves (us.map fun u => (u.ref, u.stored)) bytes.length offsets)
          (filled room bytes) e writer := by
  induction us generalizing bytes offsets with
  | nil =>
    rw [blocks, List.map_nil, Block.bytes_nil, List.append_nil]
    exact .inl ⟨offsets, hfits, Action.runs_pure _ _, by simp, fun _ _ => rfl⟩
  | cons u us ih =>
    obtain ⟨r, m, l, rfl⟩ := htips u List.mem_cons_self
    have htips' := fun v hv => htips v (List.mem_cons_of_mem _ hv)
    obtain ⟨hright, hlinked⟩ := right_eq_of_linked htips' hlinked
    obtain ⟨hoffset, hplaced⟩ := hplaced
    -- the offset of the next leaf is where this one ends
    have hnext : (if (us.map fun u => (u.ref, u.stored)).isEmpty then none
        else some (PageRef.ofNat (bytes.length + (Subtree.leaf r m l).stored.byteSize))) = l.right.map f := by
      rw [hright]
      cases us with
      | nil => rfl
      | cons v us => exact congrArg some hplaced.1.symm
    have hblocks : blocks f (.leaf r m l :: us) = blocks f [.leaf r m l] ++ blocks f us := rfl
    have hbytes : Block.bytes (blocks f [.leaf r m l]) = ((Subtree.leaf r m l).rename f).stored.toBytes := by
      rw [bytes_blocks, laid, List.flatMap_singleton]
    have hlen : (bytes ++ Block.bytes (blocks f [.leaf r m l])).length
        = bytes.length + (Subtree.leaf r m l).stored.byteSize := by
      rw [List.length_append, hbytes, StoredPage.length_toBytes, byteSize_rename]
    rw [← hlen] at hplaced
    rw [hblocks]
    have happend := append_outcome hfits ((Subtree.leaf r m l).rename f).stored
    rw [← hoffset, ← hbytes] at happend
    rcases happend with ⟨hroom, happend⟩ | ⟨e, writer, hstopped, hfails⟩
    case inr =>
      refine .inr ⟨e, writer, hstopped.left (blocks f us), ?_⟩
      rw [List.map_cons]
      unfold Tree.placeLeaves
      dsimp only
      rw [hnext]
      rw [rename_leaf] at hfails
      exact hfails.bind _
    have hstep : Tree.placeLeaves ((Subtree.leaf r m l :: us).map fun u => (u.ref, u.stored)) bytes.length offsets
        (filled room bytes) = Tree.placeLeaves (us.map fun u => (u.ref, u.stored))
        (bytes ++ Block.bytes (blocks f [.leaf r m l])).length (offsets.insert r (f r))
        (filled room (bytes ++ Block.bytes (blocks f [.leaf r m l]))) := by
      rw [List.map_cons]
      conv_lhs => unfold Tree.placeLeaves
      dsimp only
      rw [hnext]
      rw [rename_leaf] at happend
      refine (happend.bind_eq _).trans ?_
      rw [if_neg (fun h => h hoffset), hlen]
      rfl
    rcases ih htips' hlinked hplaced hroom (offsets.insert r (f r)) with
      ⟨offsets', hroom', hrun, hgot, hkept⟩ | ⟨e, writer, hstopped, hfails⟩
    case inr => exact .inr ⟨e, writer, hstopped.right, hstep.trans hfails⟩
    rw [List.append_assoc, ← Block.bytes_append] at hroom' hrun
    refine .inl ⟨offsets', hroom', hstep.trans hrun, ?_, ?_⟩
    · intro v hv
      by_cases hlater : v.ref ∈ us.map ref
      · obtain ⟨v', hv', heq⟩ := List.mem_map.mp hlater
        rw [← heq]
        exact hgot v' hv'
      · obtain rfl | hv := List.mem_cons.mp hv
        · rw [hkept _ hlater]
          exact (Table.get?_insert ..).trans (if_pos rfl)
        · exact absurd (List.mem_map_of_mem hv) hlater
    · intro r' hr'
      rw [List.map_cons, List.mem_cons, not_or] at hr'
      rw [hkept r' hr'.2, Table.get?_insert, if_neg (fun h => hr'.1 h.symm)]

end

/-! ## The whole tree -/

section

variable {K I : Type} [IndexKey K] [Codec I] {srv : Service K I} {f : PageRef → PageRef} {room : Option Nat}

open Subtree ImageWriter Sink

/-- A filter, if there is one, with the keys of some entries. -/
def filtered (filter : Option BloomFilter) (es : List (K × I)) : Option BloomFilter :=
  filter.map fun filter => (es.map Prod.fst).foldl BloomFilter.insert filter

omit [Codec I] in
theorem filtered_append (filter : Option BloomFilter) (as bs : List (K × I)) :
    filtered filter (as ++ bs) = filtered (filtered filter as) bs := by
  cases filter with
  | none => rfl
  | some filter => rw [filtered, Option.map_some, List.map_append, List.foldl_append]; rfl

/-- The leaves along the chain, and the filter with all keys in them. -/
theorem Service.reads_storedLeaves {u : Subtree K I} {us : List (Subtree K I)}
    (htips : ∀ v ∈ u :: us, ∃ r m l, v = .leaf r m l) (hst : ∀ v ∈ u :: us, v.StoredIn srv.view)
    (hlinked : Linked none ((u :: us).flatMap leaves)) {limit : Nat} (hlimit : us.length < limit)
    (filter : Option BloomFilter) : srv.Reads (Tree.storedLeaves (K := K) (I := I) limit u.ref filter)
      (· = ((u :: us).map fun v => (v.ref, v.stored), filtered filter ((u :: us).flatMap entries))) := by
  induction limit generalizing u us filter with
  | zero => exact absurd hlimit (Nat.not_lt_zero _)
  | succ limit ih =>
    obtain ⟨r, m, l, rfl⟩ := htips u List.mem_cons_self
    have htips' := fun v hv => htips v (List.mem_cons_of_mem _ hv)
    obtain ⟨hright, hlinked'⟩ := right_eq_of_linked htips' hlinked
    unfold Tree.storedLeaves
    refine (reads_top (hst _ List.mem_cons_self)).bind_eq ?_
    refine (reads_ofExcept rfl).bind_eq ?_
    dsimp only
    rw [hright, List.flatMap_cons, entries_leaf]
    cases us with
    | nil => exact reads_pure (by rw [List.flatMap_nil, List.append_nil]; rfl)
    | cons v us =>
      have hrest := ih htips' (fun w hw => hst w (List.mem_cons_of_mem _ hw)) hlinked'
        (Nat.lt_of_succ_lt_succ hlimit) (filtered filter l.entries)
      refine hrest.bind fun out hout => reads_pure ?_
      rw [hout, filtered_append]
      rfl

namespace Tree

variable {α : Type} {pager pager' : Pager K I} {writer writer' : ImageWriter} {a : α} {e : IndexError}

omit [IndexKey K] [Codec I] in
theorem reading_runs {x : Paging K I α} (h : Action.Runs x pager a pager') (writer : ImageWriter) :
    Action.Runs (reading x) (pager, writer) a (pager', writer) := Action.Runs.zoom h

omit [IndexKey K] [Codec I] in
theorem writing_runs {x : Action IndexError ImageWriter α} (h : Action.Runs x writer a writer') (pager : Pager K I) :
    Action.Runs (writing x) (pager, writer) a (pager, writer') := Action.Runs.zoom h

omit [IndexKey K] [Codec I] in
theorem writing_fails {x : Action IndexError ImageWriter α} (h : Action.Fails x writer e writer') (pager : Pager K I) :
    Action.Fails (writing x) (pager, writer) e (pager, writer') := Action.Fails.zoom h

end Tree

/-- Started where an image of `start` bytes ends, the computation writes some blocks and answers something with `Q`; or
the writer stops inside one of them. -/
def Service.Puts {α : Type} (srv : Service K I) (room : Option Nat) (start : Nat) (x : Tree.Writing K I α)
    (blocks : List Block) (Q : α → Prop) : Prop :=
  ∀ bytes pager, bytes.length = start → Fits room bytes → srv.Serves pager →
    (∃ a pager', Q a ∧ Fits room (bytes ++ Block.bytes blocks)
        ∧ Action.Runs x (pager, filled room bytes) a (pager', filled room (bytes ++ Block.bytes blocks))
        ∧ srv.Serves pager')
      ∨ ∃ pager' e writer, Stopped room bytes blocks e writer
        ∧ Action.Fails x (pager, filled room bytes) e (pager', writer) ∧ srv.Serves pager'

namespace Service

variable {α β : Type} {start : Nat} {Q : α → Prop}

theorem puts_pure {a : α} (h : Q a) : srv.Puts room start (pure a) [] Q := by
  intro bytes pager _ hfits hserves
  rw [Block.bytes_nil, List.append_nil]
  exact .inl ⟨a, pager, h, hfits, Action.runs_pure _ _, hserves⟩

theorem Puts.bind {x : Tree.Writing K I α} {g : α → Tree.Writing K I β} {as bs : List Block} {R : β → Prop}
    (hx : srv.Puts room start x as Q)
    (hg : ∀ a, Q a → srv.Puts room (start + (Block.bytes as).length) (g a) bs R) :
    srv.Puts room start (x >>= g) (as ++ bs) R := by
  rintro bytes pager rfl hfits hserves
  -- the writer may stop in the first part, or behind it in the second
  rcases hx bytes pager rfl hfits hserves with
    ⟨a, pager₁, ha, hfits₁, hrun₁, hserves₁⟩ | ⟨pager₁, e, writer, hstopped, hfails, hserves₁⟩
  case inr => exact .inr ⟨pager₁, e, writer, hstopped.left bs, hfails.bind g, hserves₁⟩
  rcases hg a ha _ pager₁ List.length_append hfits₁ hserves₁ with
    ⟨b, pager₂, hb, hfits₂, hrun₂, hserves₂⟩ | ⟨pager₂, e, writer, hstopped, hfails, hserves₂⟩
  case inr => exact .inr ⟨pager₂, e, writer, hstopped.right, hrun₁.fails hfails, hserves₂⟩
  rw [List.append_assoc, ← Block.bytes_append] at hfits₂ hrun₂
  exact .inl ⟨b, pager₂, hb, hfits₂, hrun₁.bind hrun₂, hserves₂⟩

/-- What writes nothing may come first. -/
theorem Puts.bind_nil {x : Tree.Writing K I α} {g : α → Tree.Writing K I β} {bs : List Block} {R : β → Prop}
    (hx : srv.Puts room start x [] Q) (hg : ∀ a, Q a → srv.Puts room start (g a) bs R) :
    srv.Puts room start (x >>= g) bs R := hx.bind hg

theorem puts_get : srv.Puts room start get [] fun state => srv.Serves state.1 := by
  intro bytes pager _ hfits hserves
  rw [Block.bytes_nil, List.append_nil]
  exact .inl ⟨_, pager, hserves, hfits, Action.runs_get _, hserves⟩

theorem Reads.puts {x : Paging K I α} (h : srv.Reads x Q) (hwide : ∀ e pager, ¬ srv.Refuses e pager) :
    srv.Puts room start (Tree.reading x) [] Q := by
  intro bytes pager _ hfits hserves
  obtain ⟨a, pager', hrun, hserves', ha⟩ := h.runs hwide hserves
  rw [Block.bytes_nil, List.append_nil]
  exact .inl ⟨a, pager', ha, hfits, Tree.reading_runs hrun _, hserves'⟩

theorem puts_append {u : Subtree K I} (hplaced : Placed f start [u]) :
    srv.Puts room start (Tree.writing (ImageWriter.append (u.rename f).stored)) (blocks f [u]) (· = f u.ref) := by
  rintro bytes pager rfl hfits hserves
  have hbytes : Block.bytes (blocks f [u]) = (u.rename f).stored.toBytes := by
    rw [bytes_blocks, laid, List.flatMap_singleton]
  have happend := append_outcome hfits (u.rename f).stored
  rw [← hplaced.1, ← hbytes] at happend
  rcases happend with ⟨hfits', hrun⟩ | ⟨e, writer, hstopped, hfails⟩
  · exact .inl ⟨_, pager, rfl, hfits', Tree.writing_runs hrun pager, hserves⟩
  · exact .inr ⟨pager, e, writer, hstopped, Tree.writing_fails hfails pager, hserves⟩

theorem puts_commit (d : Descriptor) (filter : Option BloomFilter) :
    srv.Puts room start (Tree.writing (ImageWriter.commit d filter))
      [⟨.descriptor, Image.sealing start d filter⟩] fun _ => True := by
  rintro bytes pager rfl hfits hserves
  rw [Block.bytes_singleton]
  rcases commit_outcome hfits d filter with ⟨hfits', hrun⟩ | ⟨e, writer, hstopped, hfails⟩
  · exact .inl ⟨_, pager, trivial, hfits', Tree.writing_runs hrun pager, hserves⟩
  · exact .inr ⟨pager, e, writer, hstopped, Tree.writing_fails hfails pager, hserves⟩

theorem puts_placeLeaves {us : List (Subtree K I)} (htips : ∀ u ∈ us, ∃ r m l, u = .leaf r m l)
    (hlinked : Linked none (us.flatMap leaves)) (hplaced : Placed f start us) :
    srv.Puts room start
      (Tree.writing (do Tree.placeLeaves (us.map fun u => (u.ref, u.stored)) (← get).position ∅)) (blocks f us)
      fun offsets => ∀ u ∈ us, offsets.get? u.ref = some (f u.ref) := by
  rintro bytes pager rfl hfits hserves
  rcases Tree.placeLeaves_outcome htips hlinked hplaced hfits ∅ with
    ⟨offsets, hfits', hrun, hgot, -⟩ | ⟨e, writer, hstopped, hfails⟩
  · exact .inl ⟨offsets, pager, hgot, hfits', Tree.writing_runs ((Action.runs_get _).bind hrun) pager, hserves⟩
  · exact .inr ⟨pager, e, writer, hstopped, Tree.writing_fails ((Action.runs_get _).fails hfails) pager, hserves⟩

theorem puts_mapM {γ δ : Type} {x : γ → Tree.Writing K I α} {h : δ → γ} {g : δ → α} {us : δ → List (Subtree K I)}
    {cs : List δ} (hplaced : Placed f start (cs.flatMap us))
    (hx : ∀ c ∈ cs, ∀ start, Placed f start (us c) →
      srv.Puts room start (x (h c)) (blocks f (us c)) (· = g c)) :
    srv.Puts room start ((cs.map h).mapM x) (blocks f (cs.flatMap us)) (· = cs.map g) := by
  induction cs generalizing start with
  | nil =>
    rw [List.map_nil, List.mapM_nil]
    exact puts_pure rfl
  | cons c cs ih =>
    rw [List.flatMap_cons] at hplaced
    obtain ⟨hfirst, hothers⟩ := placed_append.mp hplaced
    rw [List.map_cons, List.mapM_cons, List.flatMap_cons, blocks_append]
    refine (hx c List.mem_cons_self start hfirst).bind ?_
    rintro _ rfl
    rw [bytes_blocks, length_laid, ← List.append_nil (blocks f (cs.flatMap us))]
    refine (ih hothers fun d hd => hx d (List.mem_cons_of_mem c hd)).bind ?_
    rintro _ rfl
    exact puts_pure rfl

/-- The inner pages below a page are appended, each behind all that is below it. -/
theorem puts_placeInner (hwide : ∀ e pager, ¬ srv.Refuses e pager) {offsets : Table PageRef PageRef}
    {pageSize d limit : Nat} {t : Subtree K I} (hreg : t.Regular pageSize d) (hd : d < limit)
    (hst : t.StoredIn srv.view) (htips : ∀ u ∈ t.tips, offsets.get? u.ref = some (f u.ref))
    (hplaced : Placed f start t.inners) :
    srv.Puts room start (Tree.placeInner (K := K) (I := I) offsets limit t.ref) (blocks f t.inners)
      (· = f t.ref) := by
  induction hreg generalizing limit start with
  | @leaf r m l =>
    obtain ⟨limit, rfl⟩ := Nat.exists_eq_add_one_of_ne_zero (Nat.ne_of_gt hd)
    have hoffset := htips (.leaf r m l) (by rw [tips_leaf]; exact List.mem_singleton_self _)
    unfold Tree.placeInner
    rw [inners_leaf]
    refine ((reads_top hst).puts hwide).bind_nil ?_
    rintro _ rfl
    dsimp only [Subtree.page]
    rw [hoffset]
    exact puts_pure rfl
  | @inner d r m ks cs hl hcs _ ih =>
    obtain ⟨limit, rfl⟩ := Nat.exists_eq_add_one_of_ne_zero (Nat.ne_of_gt (Nat.zero_lt_of_lt hd))
    rw [inners_inner] at hplaced ⊢
    obtain ⟨hbelow, hown⟩ := placed_append.mp hplaced
    have hchildren : srv.Puts room start ((cs.map ref).mapM (Tree.placeInner (K := K) (I := I) offsets limit))
        (blocks f (cs.flatMap inners)) (· = cs.map fun c => f c.ref) :=
      puts_mapM hbelow fun c hc start hc' => ih c hc (Nat.lt_of_succ_lt_succ hd) (hst.child hc)
        (fun u hu => htips u (by rw [tips_inner]; exact List.mem_flatMap.mpr ⟨c, hc, hu⟩)) hc'
    have hparts : Inner.ofParts? ks (cs.map fun c => f c.ref) = some ⟨ks, cs.map fun c => f c.ref⟩ := by
      rw [Inner.ofParts?, List.length_map, if_pos hl]
    have hstored : StoredPage.ofNode (.inner ⟨ks, cs.map fun c => f c.ref⟩ : Node K I) m
        = ((Subtree.inner r m ks cs).rename f).stored := by
      rw [rename_inner, stored, page, map_ref_rename, List.map_map]
      rfl
    unfold Tree.placeInner
    refine ((reads_top hst).puts hwide).bind_nil ?_
    rintro _ rfl
    dsimp only [Subtree.page]
    rw [blocks_append]
    refine hchildren.bind ?_
    rintro _ rfl
    rw [bytes_blocks, length_laid, hparts]
    refine (puts_pure rfl).bind_nil ?_
    rintro _ rfl
    rw [hstored]
    exact puts_append hown

end Service

variable {tree : Tree K I} {d : Nat} {t : Subtree K I}

/-- What an image says about a tree whose pages have other names in it. -/
def Tree.descriptor (tree : Tree K I) (f : PageRef → PageRef) (filter : Option BloomFilter) : Descriptor where
  pageSize := UInt32.ofNat tree.config.pageSize
  hasFilter := filter.isSome
  root := f tree.root
  rightmost := f tree.rightmost
  items := UInt64.ofNat tree.len
  measures := UInt16.ofNat tree.measures.length

/-- The filter over all keys of a tree, if its configuration asks for one. -/
def Tree.filter (tree : Tree K I) (t : Subtree K I) : Option BloomFilter := filtered tree.emptyFilter? t.entries

/-- What is written of a tree behind some bytes: its pages, under the names that `f` gives them, and what seals the
image. -/
def Tree.image (tree : Tree K I) (f : PageRef → PageRef) (bytes : List UInt8) (t : Subtree K I) : Image :=
  .ofSealed (bytes ++ laid f t.stowed) (tree.descriptor f (tree.filter t)) (tree.filter t)

/-- From the first leaf on, the chain leads through all leaves. -/
theorem Service.Carries.reads_storedLeaves (h : srv.Carries tree d t) {first : PageRef}
    (hfirst : ∃ l rest, t.leaves = (first, l) :: rest) {limit : Nat} (hlimit : t.refs.length ≤ limit)
    (filter : Option BloomFilter) : srv.Reads (Tree.storedLeaves (K := K) (I := I) limit first filter)
      (· = (t.tips.map fun u => (u.ref, u.stored), filtered filter t.entries)) := by
  obtain ⟨l, rest, hleaves⟩ := hfirst
  have htips := map_ref_tips t
  rw [hleaves, List.map_cons] at htips
  obtain ⟨u, us, hcons, rfl, -⟩ := List.map_eq_cons_iff.mp htips
  have hcount : (u :: us).length ≤ limit := by
    refine Nat.le_trans ?_ hlimit
    rw [← hcons, refs, List.length_map, ← t.stowed_perm.length_eq, stowed, List.length_append]
    exact Nat.le_add_right _ _
  have hmem : ∀ v ∈ u :: us, v ∈ t.subtrees := by
    intro v hv
    rw [← hcons] at hv
    exact t.stowed_perm.mem_iff.mp (List.mem_append_left _ hv)
  have hlinked : Linked none ((u :: us).flatMap leaves) := by
    rw [← hcons, leaves_tips]
    exact h.linked
  rw [← entries_tips t, hcons]
  exact Service.reads_storedLeaves (fun v hv => eq_leaf_of_mem_tips (hcons ▸ hv))
    (fun v hv => h.stored.of_mem (hmem v hv)) hlinked hcount filter

/-- What is written of a tree behind `start` bytes: its pages, and what seals the image. -/
def Tree.blocks (tree : Tree K I) (f : PageRef → PageRef) (start : Nat) (t : Subtree K I) : List Block :=
  Subtree.blocks f t.stowed ++ [⟨.descriptor, Image.sealing (start + extent t.stowed)
    (tree.descriptor f (tree.filter t)) (tree.filter t)⟩]

theorem Tree.bytes_blocks (tree : Tree K I) (f : PageRef → PageRef) (bytes : List UInt8) (t : Subtree K I) :
    bytes ++ Block.bytes (tree.blocks f bytes.length t) = (tree.image f bytes t).bytes := by
  rw [Tree.blocks, Block.bytes_append, Block.bytes_singleton, Subtree.bytes_blocks, ← List.append_assoc, Tree.image,
    Image.ofSealed, List.length_append, length_laid]

/-- A tree is written to the end: its pages, under the offsets that are their names, and what seals the image; or the
writer stops on the way. -/
theorem Tree.puts_write (h : srv.Carries tree d t) (hlimit : t.refs.length ≤ srv.limit)
    (hwide : ∀ e pager, ¬ srv.Refuses e pager) {start : Nat} (hplaced : Placed f start t.stowed) :
    srv.Puts room start tree.write (tree.blocks f start t) (· = tree.descriptor f (tree.filter t)) := by
  obtain ⟨hplacedTips, hplacedInners⟩ := placed_append.mp hplaced
  unfold Tree.write
  refine Service.puts_get.bind_nil fun state hserves => ?_
  have hwalk := srv.limit_le hserves
  refine (h.reads_firstLeaf.puts hwide).bind_nil ?_
  rintro first ⟨l, rest, hleaves, -⟩
  refine ((h.reads_storedLeaves ⟨l, rest, hleaves⟩ (Nat.le_trans hlimit hwalk) tree.emptyFilter?).puts
    hwide).bind_nil ?_
  rintro _ rfl
  dsimp only
  rw [Tree.blocks, stowed, Subtree.blocks_append, extent_append, List.append_assoc]
  refine (Service.puts_placeLeaves (fun u hu => eq_leaf_of_mem_tips hu) (by rw [leaves_tips]; exact h.linked)
    hplacedTips).bind fun offsets hoffsets => ?_
  rw [Subtree.bytes_blocks, length_laid, h.root]
  refine (Service.puts_placeInner hwide h.whole.regular (Nat.lt_of_lt_of_le h.depth hwalk) h.stored hoffsets
    hplacedInners).bind ?_
  rintro _ rfl
  rw [Subtree.bytes_blocks, length_laid, Nat.add_assoc]
  have hrightmost : offsets.get? tree.rightmost = some (f tree.rightmost) := by
    have hmem := lastRef_mem h.last
    rw [← map_ref_tips] at hmem
    obtain ⟨u, hu, href⟩ := List.mem_map.mp hmem
    rw [← href]
    exact hoffsets u hu
  rw [hrightmost, ← h.root]
  exact (Service.puts_commit (tree.descriptor f (tree.filter t)) (tree.filter t)).bind fun _ _ =>
    Service.puts_pure rfl

/-- A tree is written to the end if there is room for whatever comes. -/
theorem Tree.write_runs (h : srv.Carries tree d t) (hlimit : t.refs.length ≤ srv.limit)
    (hwide : ∀ e pager, ¬ srv.Refuses e pager) {bytes : List UInt8} {pager : Pager K I} {writer : ImageWriter}
    (hplaced : Placed f bytes.length t.stowed) (hw : writer.Wrote bytes) (hserves : srv.Serves pager) :
    ∃ pager' writer', Action.Runs tree.write (pager, writer) (tree.descriptor f (tree.filter t)) (pager', writer')
      ∧ ImageWriter.Wrote (tree.image f bytes t).bytes writer' := by
  rw [hw.eq]
  rcases Tree.puts_write h hlimit hwide hplaced bytes pager rfl (fits_none bytes) hserves with
    ⟨_, pager', rfl, -, hrun, -⟩ | ⟨_, _, _, hstopped, -⟩
  · rw [Tree.bytes_blocks] at hrun
    exact ⟨pager', _, hrun, wrote_filled _⟩
  · exact absurd hstopped not_stopped_none

end

end PagedIndex
