import PagedIndex.Index.Clear
import PagedIndex.Proofs.Index.Holding
import PagedIndex.Proofs.Subtree.Measured

/-!
# Indexes without items

An index that was just made, or just cleared, is a single empty leaf. The numbers of the pages start again
where an index is cleared, so that its leaf is the first page then.
-/

namespace PagedIndex

variable {K I : Type}

theorem Config.validate_eq {config : Config} (hmin : minPageSize ≤ config.pageSize)
    (hmax : config.pageSize ≤ maxPageSize) (hrate : config.filterRate.isProper) : config.validate = .ok () := by
  unfold validate
  rw [if_neg (Nat.not_lt.mpr hmin), if_neg (Nat.not_lt.mpr hmax), if_pos hrate]

theorem Config.of_validate {config : Config} (h : config.validate = .ok ()) :
    4 ≤ config.pageSize ∧ config.pageSize < 2 ^ 32 ∧ config.filterRate.isProper := by
  unfold validate at h
  split at h
  · exact absurd h (by simp)
  · rename_i hmin
    split at h
    · exact absurd h (by simp)
    · rename_i hmax
      split at h
      · rename_i hrate
        exact ⟨Nat.le_of_not_lt hmin, Nat.lt_succ_of_le (Nat.le_of_not_lt hmax), hrate⟩
      · exact absurd h (by simp)

/-- Pages in memory, an empty leaf the only one, that were just started. -/
def Pager.fresh (values : List Int64) : Pager K I where
  backing := .resident ({ (Resident.fresh : Resident K I) with life := .ready }.addNext (.leaf .empty) values)
  gate := .wide
  preset := none

theorem Pager.page?_fresh (values : List Int64) (r : PageRef) : (fresh values : Pager K I).page? r
    = if ⟨0⟩ = r then some ⟨⟨0⟩, values, .leaf .empty⟩ else none :=
  Table.get?_insert _ _ _ _

theorem Pager.ready_fresh (values : List Int64) : (fresh values : Pager K I).Ready := by
  let p : Pager K I := ⟨.resident { (Resident.fresh : Resident K I) with life := .ready }, .wide, none⟩
  have hs : p.Started { (Resident.fresh : Resident K I) with life := .ready } := ⟨rfl, rfl⟩
  have hnext : p.next.toNat = 0 := rfl
  exact (hs.addNext (hs.ready_of_empty fun r => rfl) (by omega) (.leaf .empty) values).1.ready

namespace Index

variable [Ord K] {s : Index K I} {r : PageRef} {m : List Int64}

/-- A single empty leaf is an index. -/
theorem holds_empty (hready : s.pager.Ready) (hsize : 4 ≤ s.tree.config.pageSize) (hroot : s.tree.root = r)
    (hright : s.tree.rightmost = r) (hlen : s.tree.len = 0)
    (hpage : s.pager.page? r = some ⟨r, m, .leaf .empty⟩) : Holds s 0 (.leaf r m .empty) where
  ready := hready
  pageSize := hsize
  root := hroot
  stored := Subtree.storedIn_leaf.mpr hpage
  nodup := by
    rw [Subtree.refs_leaf]
    exact List.nodup_singleton r
  ascending := by
    rw [Subtree.walk_leaf]
    exact List.Pairwise.nil
  linked := by
    rw [Subtree.leaves_leaf]
    exact ⟨rfl, trivial⟩
  last := by
    rw [Subtree.leaves_leaf, hright]
    rfl
  keyed := by
    rw [Subtree.entries_leaf]
    exact fun e he => absurd he List.not_mem_nil
  whole := ⟨.leaf, Nat.zero_le _, fun h => absurd rfl h⟩
  len := by
    rw [Subtree.entries_leaf]
    exact hlen

/-- Clearing leaves an empty leaf, the first page. It is made when there is no page any more. -/
theorem clear_runs {d : Nat} {t : Subtree K I} (h : Holds s d t) (hclear : s.pager.gate.clear.next.1 = .granted)
    (hcreate : s.pager.gate.create.next.1 = .granted) : ∃ r p u, Action.Runs clear s () u
      ∧ Holds u 0 (.leaf r s.tree.measures.identity .empty)
      ∧ u.tree = { s.tree with root := r, rightmost := r, len := 0 }
      ∧ Action.Runs Pager.clear s.pager () p ∧ (∀ n, p.page? n = none)
      ∧ Action.Runs (Pager.create (.leaf .empty) s.tree.measures.identity) p ⟨r, s.tree.measures.identity, .leaf .empty⟩
        u.pager
      ∧ Pager.Grown [r] p u.pager ∧ u.pager.next.toNat = 1
      ∧ u.pager.gate = { s.pager.gate with
        clear := s.pager.gate.clear.next.2, create := s.pager.gate.create.next.2 } := by
  obtain ⟨p, hclear, hp, hpg, hpn, hnone⟩ := Pager.clear_runs h.ready hclear
  obtain ⟨q, hcreate, hgrown, hcalled, hpage⟩ := Pager.create_runs hp (by rw [hpg]; exact hcreate)
    (by rw [hpn]; exact Nat.one_lt_two_pow (by omega)) (.leaf .empty) s.tree.measures.identity
  refine ⟨_, p, ⟨{ s.tree with root := ⟨p.next⟩, rightmost := ⟨p.next⟩, len := 0 }, q⟩, ?_,
    holds_empty hgrown.ready h.pageSize rfl rfl rfl hpage, rfl, hclear, hnone, hcreate, hgrown, ?_, ?_⟩
  · unfold clear
    refine h.requireWritable_runs.bind ?_
    refine (paging_runs hclear).bind ?_
    refine (Action.runs_get _).bind ?_
    exact (paging_runs hcreate).bind (modifyTree_runs _ _)
  · rw [hgrown.next, hpn]
    rfl
  · rw [hcalled.gate, hpg]
    rfl

end Index

/-! ## A new index -/

/-- A new index over pages in memory. -/
def Index.fresh (config : Config) (measures : MeasureSet I) (keyOf : I → K) : Index K I where
  tree := { config, measures, keyOf, root := ⟨0⟩, rightmost := ⟨0⟩, len := 0 }
  pager := .fresh measures.identity

variable {config : Config} (measures : MeasureSet I) (keyOf : I → K)

omit measures keyOf in
theorem Tree.requireValid_runs (hvalid : config.validate = .ok ()) (pager : Pager K I) :
    Action.Runs (requireValid config) pager () pager := by
  unfold requireValid
  rw [hvalid]
  rfl

omit measures keyOf in
theorem Tree.requireValid_fails {fault : ConfigFault} (hfault : config.validate = .error fault)
    (pager : Pager K I) : Action.Fails (requireValid config) pager (.invalidConfig fault) pager := by
  unfold requireValid
  rw [hfault]
  rfl

/-- This is what is made for a valid configuration. -/
theorem Tree.create_runs (hvalid : config.validate = .ok ()) :
    Action.Runs (Tree.create config measures keyOf) (Pager.inMemory .wide)
      (Index.fresh config measures keyOf).tree (Index.fresh config measures keyOf).pager := by
  unfold Tree.create
  exact (requireValid_runs hvalid _).bind rfl

variable {measures keyOf} {tree : Tree K I} {pager : Pager K I}

theorem Tree.eq_of_create_runs
    (h : Action.Runs (Tree.create config measures keyOf) (Pager.inMemory .wide) tree pager) :
    config.validate = .ok () ∧ ⟨tree, pager⟩ = Index.fresh config measures keyOf := by
  cases hvalid : config.validate with
  | ok =>
    obtain ⟨rfl, rfl⟩ := h.unique (Tree.create_runs measures keyOf hvalid)
    exact ⟨rfl, rfl⟩
  | error fault => exact absurd h ((requireValid_fails hvalid _).bind _).not_runs

/-- Opening calls the pager once; what is stored has to go with the measures and the configuration. -/
theorem Tree.of_openStored_runs {pager' pager'' : Pager K I} {descriptor : Descriptor}
    (hstart : Action.Runs Pager.start pager (some descriptor) pager')
    (h : Action.Runs (Tree.openStored config measures keyOf) pager tree pager'') :
    pager'' = pager' ∧ descriptor.measures.toNat = measures.length ∧ tree.config.validate = .ok ()
      ∧ tree.config.filterRate = config.filterRate := by
  unfold Tree.openStored Action.Runs at h
  rw [Action.bind_apply, show Pager.start _ = _ from hstart] at h
  dsimp only at h
  split at h
  · exact absurd h ((Action.fails_fail _ _).bind _).not_runs
  · rename_i hcount
    let stored : Config :=
      { config with
        pageSize := descriptor.pageSize.toNat
        hasFilter := descriptor.hasFilter }
    cases hvalid : stored.validate with
    | ok =>
      obtain ⟨rfl, rfl⟩ := Action.Runs.unique h ((requireValid_runs hvalid _).bind (Action.runs_pure _ _))
      exact ⟨rfl, Decidable.not_not.mp hcount, hvalid, rfl⟩
    | error fault => exact absurd h ((requireValid_fails hvalid _).bind _).not_runs

/-- What opening ready-made pages gives. -/
theorem Tree.eq_of_openStored_runs {nodes : List (Node K I × List Int64)} {descriptor : Descriptor}
    (h : Action.Runs (Tree.openStored config measures keyOf) (Pager.ofNodes nodes descriptor) tree pager) :
    pager = Pager.ofNodes nodes descriptor ∧ tree.config.validate = .ok () := by
  have hstart : Action.Runs Pager.start (Pager.ofNodes nodes descriptor) (some descriptor)
      (Pager.ofNodes nodes descriptor) := rfl
  obtain ⟨hpager, -, hvalid, -⟩ := Tree.of_openStored_runs hstart h
  exact ⟨hpager, hvalid⟩

variable (measures keyOf) in
theorem Index.holds_fresh [Ord K] (hsize : 4 ≤ config.pageSize) :
    Holds (fresh config measures keyOf) 0 (.leaf ⟨0⟩ measures.identity .empty) :=
  holds_empty (Pager.ready_fresh _) hsize rfl rfl rfl ((Pager.page?_fresh _ _).trans (if_pos rfl))

end PagedIndex
