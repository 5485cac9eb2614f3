import PagedIndex.Proofs.Finding
import PagedIndex.Proofs.Index.Operations

/-!
# An index is a map

Whatever is done to an index, it answers as a finite map from keys to items does: every operation of a run
(`answers_eq`), and every look-up after it. A map `Mirrors` the entries of a tree, and each operation keeps it
a mirror, whichever pages were split, merged or given up on the way.
-/

namespace PagedIndex.Index

variable {K I : Type}

/-- Items under keys, at most one under each key. -/
abbrev KeyMap (K I : Type) [Ord K] := Std.ExtTreeMap K I compare

/-! ## Operations on a map -/

section Map

variable [Ord K] [Std.TransOrd K] (keyOf : I → K)

namespace Op

/-- What the operation answers on a map. -/
def mapAnswer : Op K I → KeyMap K I → Answer I
  | add item, map => if keyOf item ∈ map then .error (.failed .duplicateKey) else .ok none
  | replace item, map =>
    match map[keyOf item]? with
    | some old => .ok (some old)
    | none => .error (.failed .keyNotFound)
  | remove key, map => .ok map[key]?
  | clear, _ => .ok none

/-- The map after the operation. -/
def mapAfter : Op K I → KeyMap K I → KeyMap K I
  | add item, map => if keyOf item ∈ map then map else map.insert (keyOf item) item
  | replace item, map => if keyOf item ∈ map then map.insert (keyOf item) item else map
  | remove key, map => map.erase key
  | clear, _ => ∅

end Op

/-- The map after a run. -/
def mapAfter : List (Op K I) → KeyMap K I → KeyMap K I
  | [], map => map
  | op :: ops, map => mapAfter ops (op.mapAfter keyOf map)

/-- What the operations of a run answer on a map. -/
def mapAnswers : List (Op K I) → KeyMap K I → List (Answer I)
  | [], _ => []
  | op :: ops, map => op.mapAnswer keyOf map :: mapAnswers ops (op.mapAfter keyOf map)

/-! ## Mirrors -/

/-- The map has the entries of the list. -/
structure Mirrors (map : KeyMap K I) (es : List (K × I)) : Prop where
  get? : ∀ key, map[key]? = itemAt key es
  size : map.size = es.length

variable {keyOf} {map : KeyMap K I} {es es' : List (K × I)}

theorem mirrors_empty : Mirrors (∅ : KeyMap K I) [] := ⟨fun _ => Std.ExtTreeMap.getElem?_empty, rfl⟩

theorem Mirrors.contains (h : Mirrors map es) (key : K) : map.contains key = (itemAt key es).isSome := by
  rw [← h.get?, Std.ExtTreeMap.isSome_getElem?_eq_contains]

/-- In a list in order, no other entry has the key of an entry. -/
theorem absent_of_increasing {as bs : List (K × I)} {e : K × I}
    (h : Increasing ((as ++ e :: bs).map Prod.fst)) : Absent e.1 (as ++ bs) := by
  unfold Increasing at h
  rw [List.map_append, List.pairwise_append, List.map_cons, List.pairwise_cons] at h
  obtain ⟨-, ⟨hbs, -⟩, has⟩ := h
  intro x hx heq
  rcases List.mem_append.mp hx with hx | hx
  · have := has x.1 (List.mem_map_of_mem hx) e.1 List.mem_cons_self
    rw [heq] at this
    exact absurd this (by simp)
  · have := hbs x.1 (List.mem_map_of_mem hx)
    rw [Std.OrientedCmp.eq_symm heq] at this
    exact absurd this (by simp)

theorem Mirrors.mem_iff (h : Mirrors map es) (key : K) : key ∈ map ↔ (itemAt key es).isSome := by
  rw [← Std.ExtTreeMap.contains_iff_mem, h.contains]

/-- An entry that comes in. -/
theorem Mirrors.insert {as bs : List (K × I)} (h : Mirrors map (as ++ bs)) {key : K} (habs : Absent key (as ++ bs))
    (item : I) : Mirrors (map.insert key item) (as ++ (key, item) :: bs) := by
  refine ⟨fun k => ?_, ?_⟩
  · rw [Std.ExtTreeMap.getElem?_insert, itemAt_insert habs, h.get?]
  · have hnot : key ∉ map := by
      rw [h.mem_iff, itemAt_eq_none.mpr habs]
      simp
    rw [Std.ExtTreeMap.size_insert, if_neg (by rwa [Std.ExtTreeMap.contains_iff_mem]), h.size, List.length_append,
      List.length_append, List.length_cons]
    omega

/-- An entry whose item gives way to another. -/
theorem Mirrors.replace {as bs : List (K × I)} {e : K × I} (h : Mirrors map (as ++ e :: bs))
    (habs : Absent e.1 (as ++ bs)) {key : K} (heq : compare e.1 key = .eq) (hmem : key ∈ map) (item : I) :
    Mirrors (map.insert key item) (as ++ (e.1, item) :: bs) := by
  refine ⟨fun k => ?_, ?_⟩
  · have hnew : itemAt k (as ++ (e.1, item) :: bs)
        = if compare e.1 k = .eq then some item else itemAt k (as ++ bs) :=
      itemAt_insert (show Absent (e.1, item).1 (as ++ bs) from habs) k
    -- the map knows the new key, the entries keep the old one; both are equal to the same keys
    have hiff : compare key k = .eq ↔ compare e.1 k = .eq := by
      rw [Std.TransCmp.congr_left heq]
    rw [Std.ExtTreeMap.getElem?_insert, h.get?, itemAt_insert habs, hnew]
    by_cases hk : compare e.1 k = .eq
    · rw [if_pos (hiff.mpr hk), if_pos hk]
    · rw [if_neg fun h => hk (hiff.mp h), if_neg hk, if_neg hk]
  · rw [Std.ExtTreeMap.size_insert, if_pos (Std.ExtTreeMap.contains_iff_mem.mpr hmem), h.size, List.length_append,
      List.length_append]
    rfl

/-- An entry that leaves. -/
theorem Mirrors.erase {as bs : List (K × I)} {e : K × I} (h : Mirrors map (as ++ e :: bs))
    (habs : Absent e.1 (as ++ bs)) {key : K} (heq : compare e.1 key = .eq) (hmem : key ∈ map) :
    Mirrors (map.erase key) (as ++ bs) := by
  refine ⟨fun k => ?_, ?_⟩
  · rw [Std.ExtTreeMap.getElem?_erase, h.get?, itemAt_insert habs]
    by_cases hk : compare key k = .eq
    · rw [if_pos hk]
      refine (itemAt_eq_none.mpr fun x hx hxk => habs x hx ?_).symm
      exact Std.TransCmp.eq_trans hxk (Std.OrientedCmp.eq_symm (Std.TransCmp.eq_trans heq hk))
    · rw [if_neg hk, if_neg]
      exact fun hek => hk (Std.TransCmp.eq_trans (Std.OrientedCmp.eq_symm heq) hek)
  · rw [Std.ExtTreeMap.size_erase, if_pos (Std.ExtTreeMap.contains_iff_mem.mpr hmem), h.size, List.length_append,
      List.length_append, List.length_cons]
    omega

theorem Mirrors.erase_absent (h : Mirrors map es) {key : K} (habs : itemAt key es = none) :
    Mirrors (map.erase key) es := by
  refine ⟨fun k => ?_, ?_⟩
  · rw [Std.ExtTreeMap.getElem?_erase, h.get?]
    by_cases hk : compare key k = .eq
    · rw [if_pos hk, ← h.get?, ← Std.ExtTreeMap.getElem?_congr hk, h.get?, habs]
    · rw [if_neg hk]
  · rw [Std.ExtTreeMap.size_erase, if_neg (by rw [h.contains, habs]; simp), h.size]

/-- The effect of an operation on the entries shows in the map. -/
theorem Mirrors.effect (h : Mirrors map es) (hinc : Increasing (es.map Prod.fst)) {op : Op K I}
    {answer : Answer I} (he : Effect keyOf op es answer es') :
    answer = op.mapAnswer keyOf map ∧ Mirrors (op.mapAfter keyOf map) es' := by
  -- what an operation does to the entries is settled; the map does the same at its key
  cases he with
  | @added item as bs hitem =>
    have hnot : keyOf item ∉ map := by
      rw [h.mem_iff, hitem]
      simp
    refine ⟨(if_neg hnot).symm, ?_⟩
    rw [Op.mapAfter, if_neg hnot]
    exact h.insert (itemAt_eq_none.mp hitem) item
  | @duplicate item present _ hitem =>
    have hmem : keyOf item ∈ map := by
      rw [h.mem_iff, hitem]
      rfl
    exact ⟨(if_pos hmem).symm, by rwa [Op.mapAfter, if_pos hmem]⟩
  | @replaced item e as bs heq =>
    have habs := absent_of_increasing hinc
    have hget : map[keyOf item]? = some e.2 := by rw [h.get?, itemAt_insert habs, if_pos heq]
    have hmem : keyOf item ∈ map := Std.ExtTreeMap.mem_iff_isSome_getElem?.mpr (by rw [hget]; rfl)
    refine ⟨by rw [Op.mapAnswer, hget], ?_⟩
    rw [Op.mapAfter, if_pos hmem]
    exact h.replace habs heq hmem item
  | @unknown item _ hitem =>
    have hnot : keyOf item ∉ map := by
      rw [h.mem_iff, hitem]
      simp
    exact ⟨by rw [Op.mapAnswer, h.get?, hitem], by rwa [Op.mapAfter, if_neg hnot]⟩
  | @removed key e as bs heq =>
    have habs := absent_of_increasing hinc
    have hget : map[key]? = some e.2 := by rw [h.get?, itemAt_insert habs, if_pos heq]
    have hmem : key ∈ map := Std.ExtTreeMap.mem_iff_isSome_getElem?.mpr (by rw [hget]; rfl)
    exact ⟨by rw [Op.mapAnswer, hget], h.erase habs heq hmem⟩
  | @absent key _ hitem => exact ⟨by rw [Op.mapAnswer, h.get?, hitem], h.erase_absent hitem⟩
  | cleared => exact ⟨rfl, mirrors_empty⟩

end Map

/-! ## Look-ups -/

section Run

variable [IndexKey K] [Codec I]

/-- Every look-up answers as the map does. -/
structure LooksLike [Std.TransOrd K] (s : Index K I) (map : KeyMap K I) : Prop where
  find? : ∀ key, (s.tree.find? key).answer s.pager = .ok map[key]?
  get : ∀ key, (s.tree.get key).answer s.pager = match map[key]? with
    | some item => .ok item
    | none => .error (.failed .keyNotFound)
  contains : ∀ key, (s.tree.contains key).answer s.pager = .ok (map.contains key)
  len : s.tree.len = map.size

variable {s : Index K I} {d : Nat} {t : Subtree K I} {map : KeyMap K I}

/-- A resident pager has no reason to say that a key is absent. -/
theorem Holds.reads_mightContain (h : Holds s d t) (hn : s.pager.next.toNat ≤ 2 ^ 64 - 2) (key : K) :
    (s.pager.service h.ready hn).Reads (Pager.mightContain key) fun may =>
      may = false → itemAt key t.entries = none := by
  refine (Pager.reads_mightContain key).mono fun may hmay hnot => ?_
  rw [hmay] at hnot
  exact absurd hnot (by simp)

variable [Std.TransOrd K]

theorem Holds.find?_runs (h : Holds s d t) (hg : s.pager.gate = .wide) (hn : s.pager.next.toNat ≤ 2 ^ 64 - 2)
    (key : K) : ∃ pager, Action.Runs (s.tree.find? key) s.pager (itemAt key t.entries) pager := by
  obtain ⟨out, pager, hrun, -, rfl⟩ := h.reads hn (by rw [hg]; rfl)
    (Service.reads_find? (h.reads_mightContain hn key) h.stored h.root h.whole h.ascending h.depth_lt)
  exact ⟨pager, hrun⟩

theorem Holds.looksLike (h : Holds s d t) (hg : s.pager.gate = .wide) (hn : s.pager.next.toNat ≤ 2 ^ 64 - 2)
    (hm : Mirrors map t.entries) : LooksLike s map := by
  refine ⟨fun key => ?_, fun key => ?_, fun key => ?_, ?_⟩
  · obtain ⟨pager, hrun⟩ := h.find?_runs hg hn key
    rw [hrun.answer_eq, hm.get?]
  · obtain ⟨pager, hrun⟩ := h.find?_runs hg hn key
    rw [hm.get?]
    cases hitem : itemAt key t.entries with
    | some item =>
      rw [hitem] at hrun
      exact (hrun.bind (Action.runs_pure item pager)).answer_eq
    | none =>
      rw [hitem] at hrun
      exact (hrun.fails (Action.fails_fail IndexError.keyNotFound pager)).answer_eq
  · obtain ⟨out, pager, hrun, -, rfl⟩ := h.reads hn (by rw [hg]; rfl)
      (Service.reads_contains (h.reads_mightContain hn key) h.stored h.root h.whole h.ascending h.depth_lt)
    rw [hrun.answer_eq, hm.contains]
  · rw [h.len, hm.size]

/-! ## Runs -/

/-- A run answers as the map does, and leaves what mirrors the map. -/
theorem Holds.mirrors (h : Holds s d t) (hg : s.pager.gate = .wide) (hm : Mirrors map t.entries)
    (ops : List (Op K I)) (hn : s.pager.next.toNat + pagesMade ops s ≤ 2 ^ 64 - 2) :
    answers ops s = mapAnswers s.tree.keyOf ops map
      ∧ LooksLike (after ops s) (mapAfter s.tree.keyOf ops map) := by
  induction ops generalizing s d t map with
  | nil => exact ⟨rfl, h.looksLike hg hn hm⟩
  | cons op ops ih =>
    rw [pagesMade] at hn
    obtain ⟨d₁, T₁, h₁, hsame, hnext, heffect, -⟩ := h.perform hg op (by omega)
    obtain ⟨hanswer, hm₁⟩ := hm.effect (Subtree.increasing_entries h.ascending) heffect
    obtain ⟨hanswers, hlooks⟩ := ih h₁ (by rw [hsame.gate, hg]) hm₁ (by omega)
    rw [hsame.keyOf] at hanswers hlooks
    exact ⟨by rw [answers, mapAnswers, hanswer, hanswers], hlooks⟩

variable {config : Config} {ops : List (Op K I)}

/-- From a new index on, every operation answers as it does on a map, and after every operation all look-ups
answer as that map does. -/
theorem refines_map (hmin : 4 ≤ config.pageSize) (hmax : config.pageSize ≤ 2 ^ 32 - 1)
    (hrate : config.filterRate.isProper) (measures : MeasureSet I) (keyOf : I → K)
    (hpages : 1 + pagesMade ops (fresh config measures keyOf) < 2 ^ 64 - 2) :
    Action.Runs (Tree.create config measures keyOf) (Pager.inMemory .wide) (fresh config measures keyOf).tree
        (fresh config measures keyOf).pager
      ∧ answers ops (fresh config measures keyOf) = mapAnswers keyOf ops ∅
      ∧ ∀ done, done <+: ops →
        LooksLike (after done (fresh config measures keyOf)) (mapAfter keyOf done ∅) := by
  have hvalid := Config.validate_eq hmin hmax hrate
  have hholds := holds_fresh measures keyOf hmin
  have hnext : (fresh config measures keyOf).pager.next.toNat = 1 := rfl
  have hmirrors : Mirrors (∅ : KeyMap K I) (Subtree.leaf (K := K) ⟨0⟩ measures.identity .empty).entries := by
    rw [Subtree.entries_leaf]
    exact mirrors_empty
  refine ⟨Tree.create_runs measures keyOf hvalid, (hholds.mirrors rfl hmirrors ops (by omega)).1,
    fun done hdone => (hholds.mirrors rfl hmirrors done ?_).2⟩
  obtain ⟨rest, rfl⟩ := hdone
  rw [pagesMade_append] at hpages
  omega

/-- Some operations succeed, some are refused, and a page is split on the way. -/
theorem refines_map_small :
    1 + pagesMade [.add 3, .add 1, .add 2, .add 5, .add 4, .add 3, .remove 2, .replace 6, .clear, .add 2]
      (fresh { pageSize := 4 } [.count] id : Index UInt64 UInt64) < 2 ^ 64 - 2
    ∧ answers [.add 3, .add 1, .add 2, .add 5, .add 4, .add 3, .remove 2, .replace 6, .clear, .add 2]
      (fresh { pageSize := 4 } [.count] id : Index UInt64 UInt64)
      = mapAnswers id [.add 3, .add 1, .add 2, .add 5, .add 4, .add 3, .remove 2, .replace 6, .clear, .add 2] ∅ := by
  have hpages : 1 + pagesMade
      [.add 3, .add 1, .add 2, .add 5, .add 4, .add 3, .remove 2, .replace 6, .clear, .add 2]
      (fresh { pageSize := 4 } [.count] id : Index UInt64 UInt64) < 2 ^ 64 - 2 := by decide +kernel
  exact ⟨hpages, (refines_map (by decide) (by decide) (by decide) [.count] id hpages).2.1⟩

end Run

end PagedIndex.Index
