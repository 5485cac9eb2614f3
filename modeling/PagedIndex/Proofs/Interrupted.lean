import PagedIndex.Proofs.Image.Damaged
import PagedIndex.Proofs.Serving
import PagedIndex.Proofs.Stocked
import PagedIndex.Proofs.Subtree.Height
import Mathlib.Data.List.TakeDrop

/-!
# Scans that are interrupted

Behind a pager that may refuse any call (`Pager.Falters`), a scan hands out what it would hand out anyway, up to some
entry, and then either has come to its end or hands out one failure; after that there is nothing more, however often it
is asked (`scan_interrupted`). A call to a scan takes one entry off those that are left, or it is the last one to give
anything (`Service.Carries.next_cases`), so what becomes of all of them follows by induction over the entries.
-/

namespace PagedIndex

open PagedIndex.Action

variable {K I : Type}

/-! ## Pagers that falter -/

/-- Asked for a page that `view` has, the pager hands it out or fails; which calls fail is left open. -/
inductive Pager.Falters [Codec K] [Codec I] (pager : Pager K I) : (PageRef → Option (Page K I)) → Prop
  /-- The pages are in memory, and the gate may refuse any call. -/
  | resident {store : Resident K I} : pager.Started store → Falters pager pager.shown?
  /-- They lie in an image, or did so before it was damaged. -/
  | imaged {store : Imaged K I} {image : Image} {capacity : Nat} {found : Descriptor × Option BloomFilter}
    {view : PageRef → Option (Page K I)} : pager.backing = .imaged store → store.Stands image capacity .ready →
    image.descriptor = .ok found →
    (∀ ref page, view ref = some page → AnswersOrFails (· = page) (image.resolved .ready ref)) → Falters pager view

section

variable [IndexKey K] [Codec I] {pager : Pager K I} {view : PageRef → Option (Page K I)} {tree : Tree K I}
  {t : Subtree K I}

/-- Damage to an image may leave pages that do not read any more; it must not leave any that read otherwise. -/
theorem Pager.Falters.of_damaged [GuardedCodec K] [GuardedCodec I] {store : Imaged K I} {image : Image}
    {capacity : Nat} {found : Descriptor × Option BloomFilter} (hb : pager.backing = .imaged store)
    (hstands : store.Stands image capacity .ready) (hopens : image.descriptor = .ok found)
    (hkept : ∀ ref page page', view ref = some page → image.page? ref = some page' → page' = page) :
    pager.Falters view := by
  refine .imaged hb hstands hopens fun ref page hpage => ?_
  have houtcome := image.answersOrFails_resolved (K := K) (I := I) .ready ref
  cases hr : (image.resolved .ready ref : Except (Halt IndexError) (Page K I)) with
  | ok page' => exact hkept ref page page' hpage (Image.of_resolved_eq_ok hr).2
  | error halt =>
    obtain ⟨e, rfl⟩ := houtcome.failed hr
    trivial

/-- The pages of an image are a service even if some of them are not handed out. -/
def Service.overImage (image : Image) (capacity : Nat) (view : PageRef → Option (Page K I))
    (h : ∀ ref page, view ref = some page → AnswersOrFails (· = page) (image.resolved .ready ref)) : Service K I where
  view := view
  Serves q := Pager.OverImage image capacity .ready q.backing
  Refuses _ _ := True
  limit := image.bytes.length + 2
  limit_le {q} hq := by
    have hnames := q.names_le_walkLimit
    rwa [hq.names_eq, if_neg (by simp)] at hnames
  served {q ref page} hq hpage := by
    obtain ⟨store, hb, hstands⟩ := hq
    refine served_of_meets (Pager.meets_resolve
      (Q := fun answer backing => answer = page ∧ Pager.OverImage image capacity .ready backing) ?_)
    rw [hb]
    refine ((hstands.resolve_gives ref).meets (h ref page hpage)).mono ?_
    rintro answer store' ⟨⟨-, rfl⟩, hstands'⟩
    exact ⟨rfl, store', rfl, hstands'⟩

/-- A tree in an image of which some pages may not be handed out is carried all the same. -/
theorem Service.exists_carries_overImage [Std.TransOrd K] {image : Image} {capacity : Nat}
    {found : Descriptor × Option BloomFilter} (hopens : image.descriptor = .ok found)
    (hpages : ∀ ref page, view ref = some page → AnswersOrFails (· = page) (image.resolved .ready ref))
    (hsize : 4 ≤ tree.config.pageSize) (ht : tree.Matches view t) :
    ∃ d, (Service.overImage image capacity view hpages).Carries tree d t := by
  -- its descriptor reads, and so there are more bytes than any tree has levels
  have hroom := image.answersOrFails_descriptor.answered hopens
  have hbytes : Header.byteSize + Descriptor.byteSize = 44 := by decide
  refine ht.exists_carries hsize ht.stored fun d hwhole => ?_
  have hlow := hwhole.depth_le hsize ht.sound.nodup
  show d < image.bytes.length + 2
  omega

/-- A tree whose pages may fail to be handed out is carried all the same. -/
theorem Pager.Falters.exists_carries [Std.TransOrd K] (h : pager.Falters view) (hsize : 4 ≤ tree.config.pageSize)
    (ht : tree.Matches view t) : ∃ (srv : Service K I) (d : Nat), srv.Carries tree d t ∧ srv.Serves pager := by
  cases h with
  | @resident store hs =>
    let srv := pager.shownService ⟨store, hs⟩
    have hcount := hs.length_le_of_shown ht.sound.nodup fun _ hr => ht.stored.isSome hr
    have hdepth : ∀ d, t.Whole tree.config.pageSize d → d < srv.limit := by
      intro d hwhole
      have hbelow := hwhole.regular.depth_lt
      show d < pager.pageCount + 2
      omega
    obtain ⟨d, hcarries⟩ := ht.exists_carries hsize ht.stored hdepth
    exact ⟨srv, d, hcarries, 0, .refl hs.backing⟩
  | @imaged store image capacity found view hb hstands hopens hpages =>
    obtain ⟨d, hcarries⟩ := Service.exists_carries_overImage hopens hpages hsize ht
    exact ⟨_, d, hcarries, store, hb, hstands⟩

/-! ## What a scan gives -/

/-- What the next `count` calls of a scan give. -/
def Scan.polls (tree : Tree K I) : Nat → Scan K I → Paging K I (List (Option (Except IndexError (K × I))))
  | 0, _ => return []
  | count + 1, scan => do
    let (outcome, scan) ← scan.next tree
    return outcome :: (← scan.polls tree count)

/-- However often it is asked, the scan hands out `out` and then nothing. -/
def Scan.HandsOut (tree : Tree K I) (scan : Scan K I) (pager : Pager K I) (out : List (Except IndexError (K × I))) :
    Prop :=
  ∀ count, (scan.polls tree count).answer pager = .ok ((out.map some).takeD count none)

/-- Of the entries `es` all are handed out, or some first ones and then a failure. -/
inductive Interrupted (es : List (K × I)) : List (Except IndexError (K × I)) → Prop
  | complete : Interrupted es (es.map .ok)
  | failed {front : List (K × I)} (e : IndexError) : front <+: es → Interrupted es (front.map .ok ++ [.error e])

omit [IndexKey K] [Codec I] in
theorem Interrupted.cons {e : K × I} {es : List (K × I)} {out : List (Except IndexError (K × I))}
    (h : Interrupted es out) : Interrupted (e :: es) (.ok e :: out) := by
  cases h with
  | complete => exact .complete
  | failed error hfront => exact .failed error (List.cons_prefix_cons.mpr ⟨rfl, hfront⟩)

namespace Scan

theorem next_nothing (tree : Tree K I) (direction : Direction) (pager : Pager K I) :
    Runs ((nothing direction).next tree) pager (none, nothing direction) pager := by
  have hnames := pager.names_le_walkLimit
  have hlimit : pager.walkLimit = pager.walkLimit - 1 + 1 := by omega
  refine (runs_get pager).bind ?_
  rw [hlimit]
  rfl

theorem polls_succ {scan scan' : Scan K I} {pager' : Pager K I} {count : Nat}
    {outcome : Option (Except IndexError (K × I))} {rest : List (Option (Except IndexError (K × I)))}
    (hrun : Runs (scan.next tree) pager (outcome, scan') pager')
    (hrest : (scan'.polls tree count).answer pager' = .ok rest) :
    (scan.polls tree (count + 1)).answer pager = .ok (outcome :: rest) := by
  obtain ⟨pager'', hpolls⟩ := exists_runs_of_answer hrest
  have hsucc : Runs (scan.polls tree (count + 1)) pager (outcome :: rest) pager'' :=
    hrun.bind (hpolls.bind (runs_pure _ pager''))
  exact hsucc.answer_eq

theorem HandsOut.cons {scan scan' : Scan K I} {pager' : Pager K I} {outcome : Except IndexError (K × I)}
    {out : List (Except IndexError (K × I))} (h : scan'.HandsOut tree pager' out)
    (hrun : Runs (scan.next tree) pager (some outcome, scan') pager') : scan.HandsOut tree pager (outcome :: out) := by
  intro count
  cases count with
  | zero => rfl
  | succ count => exact polls_succ hrun (h count)

/-- A scan that hands nothing out goes on like that. -/
theorem handsOut_nothing (tree : Tree K I) (direction : Direction) (pager : Pager K I) :
    (nothing direction).HandsOut tree pager [] := by
  intro count
  induction count with
  | zero => rfl
  | succ count ih => exact polls_succ (next_nothing tree direction pager) ih

theorem handsOut_nil {scan : Scan K I} {direction : Direction} {pager' : Pager K I}
    (hrun : Runs (scan.next tree) pager (none, nothing direction) pager') : scan.HandsOut tree pager [] := by
  intro count
  cases count with
  | zero => rfl
  | succ count => exact polls_succ hrun (handsOut_nothing tree direction pager' count)

end Scan

variable [Std.TransOrd K] {srv : Service K I} {d : Nat}

/-- All that is left of a scan is handed out, or some first entries of it and then a failure. -/
theorem Service.Carries.exists_handsOut (h : srv.Carries tree d t) {pager : Pager K I} (hp : srv.Serves pager)
    {scan : Scan K I} {es : List (K × I)} (hscan : scan.Pending t es) :
    ∃ out, Interrupted es out ∧ scan.HandsOut tree pager out := by
  rcases h.next_cases hp hscan with ⟨e, rest, scan', pager', heq, hrun, hrest, hp'⟩
    | ⟨direction, pager', rfl, hrun, -⟩ | ⟨e, direction, pager', hrun, -⟩
  · have hshorter : rest.length < es.length := by rw [heq]; exact Nat.lt_succ_self _
    obtain ⟨out, hout, hhands⟩ := h.exists_handsOut hp' hrest
    rw [heq]
    exact ⟨_, hout.cons, hhands.cons hrun⟩
  · exact ⟨[], .complete, Scan.handsOut_nil hrun⟩
  · -- the pager may be anything by now; the scan does not call it any more
    exact ⟨[.error e], .failed e List.nil_prefix, (Scan.handsOut_nothing tree direction pager').cons hrun⟩
termination_by es.length

/-- Whatever calls are refused and whatever pages are damaged, asking for a scan along a ray is answered or fails. Asked
for its entries, the scan that is the answer hands out those on the ray, as it would if nothing failed; it hands all of
them out and then nothing any more, or only some first ones, then one failure, and then nothing any more. -/
theorem scan_interrupted (h : pager.Falters view) (hsize : 4 ≤ tree.config.pageSize) (ht : tree.Matches view t)
    (ray : Ray K) : AnswersOrFails (fun _ => True) ((Scan.ofRay tree ray).answer pager)
      ∧ ∀ scan pager', Runs (Scan.ofRay tree ray) pager scan pager' →
        ∃ out, Interrupted (ray.along t.entries) out ∧ scan.HandsOut tree pager' out := by
  obtain ⟨srv, d, hcarries, hserves⟩ := h.exists_carries hsize ht
  rcases (hcarries.reads_ofRay ray).runs_or_fails hserves with
    ⟨scan, pager', hrun, hp', hscan⟩ | ⟨e, pager', hfail, -⟩
  · refine ⟨by rw [hrun.answer_eq]; trivial, ?_⟩
    intro scan' pager'' hrun'
    obtain ⟨rfl, rfl⟩ := hrun.unique hrun'
    exact hcarries.exists_handsOut hp' hscan
  · refine ⟨by rw [hfail.answer_eq]; trivial, ?_⟩
    intro scan' pager'' hrun
    exact absurd hrun hfail.not_runs

end

namespace Index

/-- Two leaves behind a gate that lets three pages be read. -/
def overTwoLeavesShort : Index UInt64 UInt64 :=
  { overTwoLeaves with pager := { overTwoLeaves.pager with gate := { Gate.wide with resolve := .quota 3 } } }

/-- The image that two leaves are written to. -/
def imageOfTwoLeaves : Image :=
  ⟨(Action.after overTwoLeaves.tree.write (overTwoLeaves.pager, .ofSink .unlimited)).2.sink.written⟩

/-- Where in the image their pages lie. -/
def placeInImage (ref : PageRef) : PageRef := if ref = ⟨0⟩ then ⟨0⟩ else if ref = ⟨1⟩ then ⟨87⟩ else ⟨174⟩

/-- The pages that were written. -/
def writtenPage? (ref : PageRef) : Option (Page UInt64 UInt64) :=
  if ref ∈ [⟨174⟩, ⟨0⟩, ⟨87⟩] then imageOfTwoLeaves.page? ref else none

/-- The image after the first four bytes of the right leaf's payload were overwritten. -/
def damagedTwoLeaves : Image := imageOfTwoLeaves.overwrite (87 + Header.byteSize) [0, 0, 0, 255]

/-- Two leaves over the damaged image, in which one page is kept at a time. -/
def overDamagedLeaves : Index UInt64 UInt64 where
  tree := overTwoLeaves.tree.rename placeInImage {}
  pager := Action.after Pager.start (.ofImage damagedTwoLeaves 1)

set_option maxRecDepth 1000 in
theorem falters_overDamagedLeaves : overDamagedLeaves.pager.Falters writtenPage? := by
  have hreads : damagedTwoLeaves.descriptor.toOption.isSome := by decide +kernel
  obtain ⟨found, hopens⟩ : ∃ found, damagedTwoLeaves.descriptor = .ok found := by
    cases hd : damagedTwoLeaves.descriptor with
    | ok found => exact ⟨found, rfl⟩
    | error e => simp [hd, Except.toOption] at hreads
  have hstart := (Pager.stands_ofImage damagedTwoLeaves 1 : Pager.Stands (K := UInt64) (I := UInt64) ..).perform .start
  unfold Pager.lifeAfter Image.lifeAfterStart at hstart
  rw [hopens] at hstart
  obtain ⟨store, hb, hstands⟩ := hstart.backing
  refine .of_damaged hb hstands hopens fun ref page page' hpage hpage' => ?_
  -- of the three pages one does not read any more, and the others read as before
  unfold writtenPage? at hpage
  split at hpage
  · rename_i hmem
    simp only [List.mem_cons, List.not_mem_nil, or_false] at hmem
    have hroot : imageOfTwoLeaves.page? ⟨174⟩ = (damagedTwoLeaves.page? ⟨174⟩ : Option (Page UInt64 UInt64)) := by
      decide +kernel
    have hleft : imageOfTwoLeaves.page? ⟨0⟩ = (damagedTwoLeaves.page? ⟨0⟩ : Option (Page UInt64 UInt64)) := by
      decide +kernel
    have hright : (damagedTwoLeaves.page? ⟨87⟩ : Option (Page UInt64 UInt64)) = none := by decide +kernel
    rcases hmem with rfl | rfl | rfl
    · exact Option.some.inj (hpage'.symm.trans (hroot.symm.trans hpage))
    · exact Option.some.inj (hpage'.symm.trans (hleft.symm.trans hpage))
    · exact absurd (hright.symm.trans hpage') (by simp)
  · exact absurd hpage (by simp)

set_option maxRecDepth 1000 in
theorem matches_overDamagedLeaves : overDamagedLeaves.tree.Matches writtenPage? (twoLeaves.rename placeInImage) := by
  refine (matches_iff.mp matches_twoLeaves).rename (by decide) ?_ {}
  simp only [twoLeaves, Subtree.rename_inner, Subtree.rename_leaf, List.map_cons, List.map_nil,
    Subtree.storedIn_inner, List.forall_mem_cons, Subtree.storedIn_leaf]
  exact ⟨by decide +kernel, by decide +kernel, by decide +kernel, fun _ h => absurd h List.not_mem_nil⟩

end Index

open Index

set_option maxRecDepth 1000 in
/-- Downwards, the second leaf is handed out, and the way to the first one is barred. Upwards over a damaged image, the
first leaf is handed out, and the second one does not read. -/
theorem scan_interrupted_twoLeaves : (overTwoLeavesShort.pager.Falters overTwoLeavesShort.pager.page?
    ∧ overTwoLeavesShort.tree.Matches overTwoLeavesShort.pager.page? twoLeaves
    ∧ ∃ scan pager',
      Runs (Scan.ofRay overTwoLeavesShort.tree .downward) overTwoLeavesShort.pager scan pager'
      ∧ (∃ out, Interrupted (Ray.downward.along twoLeaves.entries) out
        ∧ scan.HandsOut overTwoLeavesShort.tree pager' out)
      ∧ (scan.polls overTwoLeavesShort.tree 5).answer pager'
        = .ok [some (.ok (4, 4)), some (.ok (3, 3)), some (.error (.io (.callRefused .resolve 0))), none, none])
    ∧ overDamagedLeaves.pager.Falters writtenPage?
    ∧ overDamagedLeaves.tree.Matches writtenPage? (twoLeaves.rename placeInImage)
    ∧ ∃ scan pager',
      Runs (Scan.ofRay overDamagedLeaves.tree .upward) overDamagedLeaves.pager scan pager'
      ∧ (∃ out, Interrupted (Ray.upward.along (twoLeaves.rename placeInImage).entries) out
        ∧ scan.HandsOut overDamagedLeaves.tree pager' out)
      ∧ (scan.polls overDamagedLeaves.tree 5).answer pager'
        = .ok [some (.ok (1, 1)), some (.ok (2, 2)), some (.error (.persistence ⟨87⟩ (.checksum 87))), none, none] := by
  have hready : overTwoLeavesShort.pager.Ready := ready_overTwoLeaves.behind _
  have hfalters : overTwoLeavesShort.pager.Falters overTwoLeavesShort.pager.page? := by
    obtain ⟨store, hs⟩ := hready.started
    rw [← hready.shown?_eq (by decide)]
    exact .resident hs
  have hmatches := matches_iff.mp matches_twoLeaves
  have hpolls : (do
      let scan ← Scan.ofRay overTwoLeavesShort.tree .downward
      scan.polls overTwoLeavesShort.tree 5).answer overTwoLeavesShort.pager
        = .ok [some (.ok (4, 4)), some (.ok (3, 3)), some (.error (.io (.callRefused .resolve 0))), none, none] := by
    with_unfolding_all rfl
  have hpolls' : (do
      let scan ← Scan.ofRay overDamagedLeaves.tree .upward
      scan.polls overDamagedLeaves.tree 5).answer overDamagedLeaves.pager
        = .ok [some (.ok (1, 1)), some (.ok (2, 2)), some (.error (.persistence ⟨87⟩ (.checksum 87))), none, none] := by
    decide +kernel
  obtain ⟨_, hrun⟩ := exists_runs_of_answer hpolls
  obtain ⟨scan, pager, hscan, hrest⟩ := hrun.of_bind
  obtain ⟨_, hrun'⟩ := exists_runs_of_answer hpolls'
  obtain ⟨scan', pager', hscan', hrest'⟩ := hrun'.of_bind
  exact ⟨⟨hfalters, hmatches, scan, pager, hscan,
      (scan_interrupted hfalters (by decide) hmatches .downward).2 scan pager hscan, hrest.answer_eq⟩,
    falters_overDamagedLeaves, matches_overDamagedLeaves, scan', pager', hscan',
    (scan_interrupted falters_overDamagedLeaves (by decide) matches_overDamagedLeaves .upward).2 scan' pager' hscan',
    hrest'.answer_eq⟩

end PagedIndex
