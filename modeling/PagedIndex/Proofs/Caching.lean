import PagedIndex.Proofs.Imaged

/-!
# Caches stay within their capacity

The queue of a cache names exactly the values that are in it, each once, in the order in which they came, and there are
never more of them than the capacity allows (`PageCache.Bounded`). Room is made by driving out the first one, and only
when the cache is full.
-/

namespace PagedIndex

namespace Table

variable {α β : Type} [DecidableEq α] {t : Table α β} {a : α} {b : β}

theorem get?_isSome_iff : (t.get? a).isSome ↔ a ∈ t.keys := by
  refine ⟨mem_keys_of_get?, fun h => ?_⟩
  obtain ⟨bindings⟩ := t
  show (lookup a bindings).isSome
  induction bindings with
  | nil => exact absurd h List.not_mem_nil
  | cons binding rest ih =>
    rw [lookup]
    split
    · rfl
    · rename_i hne
      exact ih ((List.mem_cons.mp h).resolve_left fun heq => hne heq.symm)

/-- A key that is new goes to the end. -/
theorem bindings_insert (h : a ∉ t.keys) (b : β) : (t.insert a b).bindings = t.bindings ++ [(a, b)] := by
  obtain ⟨bindings⟩ := t
  show bind a b bindings = bindings ++ [(a, b)]
  induction bindings with
  | nil => rfl
  | cons binding rest ih =>
    obtain ⟨hne, hrest⟩ := not_or.mp (mt List.mem_cons.mpr h)
    rw [bind, if_neg fun heq => hne heq.symm, ih hrest, List.cons_append]

theorem keys_insert (h : a ∉ t.keys) (b : β) : (t.insert a b).keys = t.keys ++ [a] := by
  rw [keys, bindings_insert h, List.map_append]
  rfl

theorem keys_erase (t : Table α β) (a : α) : (t.erase a).keys = t.keys.filter fun k => !decide (k = a) := by
  rw [keys, keys, erase, List.filter_map]
  rfl

end Table

namespace PageCache

variable {V : Type} {cache : PageCache V}

/-- The queue names the values, each once, the set of residents agrees with it, and there are not more than the
capacity allows. -/
structure Bounded (cache : PageCache V) : Prop where
  keys : cache.entries.keys = cache.order.queue
  order : cache.order.Sound
  size_le : cache.order.queue.length ≤ cache.capacity

theorem bounded_ofCapacity (capacity : Nat) : (ofCapacity capacity : PageCache V).Bounded :=
  ⟨rfl, Fifo.sound_empty, Nat.zero_le _⟩

theorem Bounded.nodup (h : cache.Bounded) : cache.order.queue.Nodup := h.order.nodup

theorem Bounded.size_eq (h : cache.Bounded) : cache.entries.size = cache.order.queue.length := by
  rw [← h.keys, Table.keys, List.length_map, Table.size]

theorem Bounded.clear (_ : cache.Bounded) : cache.clear.Bounded :=
  ⟨rfl, Fifo.sound_empty, Nat.zero_le _⟩

/-- Counting changes nothing in the cache. -/
theorem Bounded.count (h : cache.Bounded) (counters : Counters) : { cache with counters }.Bounded :=
  ⟨h.keys, h.order, h.size_le⟩

theorem makeRoom_of_lt (h : cache.entries.size < cache.capacity) : cache.makeRoom = ([], cache) := by
  rw [makeRoom, if_neg (Nat.not_le.mpr h)]

/-- A full cache drives out the value that came in first, and no other. -/
theorem Bounded.makeRoom_of_full (h : cache.Bounded) (hpos : 0 < cache.capacity)
    (hfull : cache.capacity ≤ cache.entries.size) : ∃ victim order value,
      cache.order.evict? = some (victim, order) ∧ cache.entries.get? victim = some value
      ∧ cache.makeRoom = ([(victim, value)], { cache with
          entries := cache.entries.erase victim
          order
          counters := cache.counters.countEviction }) := by
  have hsize := h.size_eq
  cases hqueue : cache.order.queue with
  | nil =>
    rw [hqueue, List.length_nil] at hsize
    omega
  | cons victim rest =>
    have hmem : victim ∈ cache.entries.keys := by
      rw [h.keys, hqueue]
      exact List.mem_cons_self
    obtain ⟨value, hvalue⟩ := Option.isSome_iff_exists.mp (Table.get?_isSome_iff.mpr hmem)
    have hsmaller : (cache.entries.erase victim).size < cache.capacity := by
      have hkeys : (cache.entries.erase victim).keys.length < cache.entries.keys.length := by
        rw [Table.keys_erase]
        exact List.length_filter_lt_length_iff_exists.mpr ⟨victim, hmem, by simp⟩
      rw [Table.keys, List.length_map, h.keys] at hkeys
      exact Nat.lt_of_lt_of_le hkeys h.size_le
    have hout := Fifo.evict?_eq_some_iff.mpr ⟨rest, hqueue, rfl⟩
    refine ⟨victim, _, value, hout, hvalue, ?_⟩
    rw [makeRoom, if_pos hfull]
    split
    · rename_i hnone
      exact absurd (hnone.symm.trans hout) (by simp)
    · rename_i hsome
      obtain ⟨rfl, rfl⟩ := Prod.mk.inj (Option.some.inj (hsome.symm.trans hout))
      rw [hvalue]
      dsimp only
      rw [makeRoom_of_lt hsmaller]
      rfl

theorem Bounded.makeRoom (h : cache.Bounded) (hpos : 0 < cache.capacity) :
    cache.makeRoom.2.Bounded ∧ cache.makeRoom.2.entries.size < cache.makeRoom.2.capacity := by
  by_cases hfull : cache.capacity ≤ cache.entries.size
  · -- one value is driven out, which is enough since there were not too many
    obtain ⟨victim, order, value, hout, -, hroom⟩ := h.makeRoom_of_full hpos hfull
    obtain ⟨rest, hqueue, rfl⟩ := Fifo.evict?_eq_some_iff.mp hout
    have hvictim := (List.nodup_cons.mp (hqueue ▸ h.nodup)).1
    have hkeys : (cache.entries.erase victim).keys = rest := by
      rw [Table.keys_erase, h.keys, hqueue, List.filter_cons_of_neg (by simp)]
      refine List.filter_eq_self.mpr fun k hk => ?_
      simp only [Bool.not_eq_true', decide_eq_false_iff_not]
      exact fun heq => hvictim (heq ▸ hk)
    have hlen := h.size_le
    rw [hqueue, List.length_cons] at hlen
    rw [hroom]
    refine ⟨⟨hkeys, h.order.evicted hout, Nat.le_of_succ_le hlen⟩, ?_⟩
    show (cache.entries.erase victim).size < cache.capacity
    rw [Table.size, ← List.length_map Prod.fst, ← Table.keys, hkeys]
    exact hlen
  · rw [makeRoom_of_lt (Nat.not_le.mp hfull)]
    exact ⟨h, Nat.not_le.mp hfull⟩

theorem capacity_makeRoom (cache : PageCache V) : cache.makeRoom.2.capacity = cache.capacity := by
  fun_induction makeRoom cache with
  | case1 => rfl
  | case2 _ _ _ _ _ _ _ _ _ hroom ih => exact (congrArg (·.2.capacity) hroom).symm.trans ih
  | case3 => rfl

theorem capacity_insert (cache : PageCache V) (ref : PageRef) (value : V) :
    (cache.insert ref value).2.2.capacity = cache.capacity := by
  unfold insert
  split
  · rfl
  · split
    · rfl
    · exact capacity_makeRoom cache

/-- A cache that takes a value in stays within its capacity. -/
theorem Bounded.insert (h : cache.Bounded) (ref : PageRef) (value : V) :
    (cache.insert ref value).2.2.Bounded := by
  unfold PageCache.insert
  split
  · exact h
  rename_i hpos
  split
  · exact h
  rename_i habsent
  obtain ⟨hroom, hsize⟩ := h.makeRoom (Nat.pos_of_ne_zero hpos)
  -- what was not there before room was made is not there now
  have hnew : ref ∉ cache.makeRoom.2.entries.keys := by
    intro hmem
    obtain ⟨kept, hkept⟩ := Option.isSome_iff_exists.mp (Table.get?_isSome_iff.mpr hmem)
    exact absurd (habsent.symm.trans (get?_of_makeRoom hkept)) (by simp)
  have hqueue := hroom.order.queue_touch (hroom.keys ▸ hnew)
  refine ⟨?_, hroom.order.touch ref, ?_⟩
  · show (Table.insert _ ref value).keys = (Fifo.touch _ ref).queue
    rw [Table.keys_insert hnew, hroom.keys, hqueue]
  · show (Fifo.touch _ ref).queue.length ≤ _
    rw [hqueue, List.length_append, List.length_singleton, ← hroom.size_eq]
    exact hsize

end PageCache

end PagedIndex
