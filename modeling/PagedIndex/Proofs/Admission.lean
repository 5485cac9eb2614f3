import PagedIndex.Proofs.Caching

/-!
# Caches are queues of bounded length

A cache keeps its values in a table, the order in which they leave in a queue, and who is resident in a set of names.
All that can be seen of the three is a single list of values in the order in which they were admitted (`Admitted`):
whatever is asked of a cache, it replies as the list does, and the three agree with the list afterwards
(`run_eq_admitted`). A request keeps them in step (`Follows.serve`), so a run does.
-/

namespace PagedIndex

variable {V : Type}

namespace PageCache

/-- What is asked of a cache. -/
inductive Request (V : Type) where
  | get (ref : PageRef)
  | insert (ref : PageRef) (value : V)
  | clear

/-- What comes back: the value that was looked up; the value that is now under the name, with the entries that were
driven out for it, each of them shown once as it left; or nothing. -/
inductive Reply (V : Type) where
  | found (value : Option V)
  | taken (value : V) (gone : List (PageRef × V))
  | cleared

/-- Does what is asked. -/
def serve (cache : PageCache V) : Request V → Reply V × PageCache V
  | .get ref =>
    let (value, cache) := cache.get ref
    (.found value, cache)
  | .insert ref value =>
    let (value, gone, cache) := cache.insert ref value
    (.taken value gone, cache)
  | .clear => (.cleared, cache.clear)

/-- Does one thing after another. -/
def run (cache : PageCache V) : List (Request V) → List (Reply V) × PageCache V
  | [] => ([], cache)
  | request :: requests =>
    let (reply, cache) := cache.serve request
    let (replies, cache) := cache.run requests
    (reply :: replies, cache)

end PageCache

/-! ## Admitted values -/

/-- Values in the order in which they were admitted, and what has happened so far: how often a value was looked up, how
many were admitted, and how many were there when everything was dropped. -/
structure Admitted (V : Type) where
  capacity : Nat
  entries : List (PageRef × V)
  lookups : Nat
  admissions : Nat
  dropped : Nat

namespace Admitted

open PageCache (Request Reply)

/-- Nothing is there, and nothing has happened. -/
def ofCapacity (capacity : Nat) : Admitted V := ⟨capacity, [], 0, 0, 0⟩

/-- A value that is new comes last; the first one leaves if there is no room left. -/
def enqueue (queue : Admitted V) (ref : PageRef) (value : V) : Reply V × Admitted V :=
  let leaving := if queue.entries.length < queue.capacity then 0 else 1
  (.taken value (queue.entries.take leaving),
    { queue with entries := queue.entries.drop leaving ++ [(ref, value)], admissions := queue.admissions + 1 })

/-- The reply to a request. A value that is there already stays, and without capacity none comes in. -/
def serve (queue : Admitted V) : Request V → Reply V × Admitted V
  | .get ref => (.found (queue.entries.lookup ref), { queue with lookups := queue.lookups + 1 })
  | .insert ref value =>
    if queue.capacity = 0 then (.taken value [], queue)
    else
      match queue.entries.lookup ref with
      | some present => (.taken present [], queue)
      | none => queue.enqueue ref value
  | .clear => (.cleared, { queue with entries := [], dropped := queue.dropped + queue.entries.length })

/-- The replies to one request after another. -/
def run (queue : Admitted V) : List (Request V) → List (Reply V) × Admitted V
  | [] => ([], queue)
  | request :: requests =>
    let (reply, queue) := queue.serve request
    let (replies, queue) := queue.run requests
    (reply :: replies, queue)

theorem capacity_serve (queue : Admitted V) (request : Request V) :
    (queue.serve request).2.capacity = queue.capacity := by
  cases request with
  | get ref => rfl
  | clear => rfl
  | insert ref value =>
    rw [serve]
    split
    · rfl
    · split <;> rfl

theorem capacity_run (queue : Admitted V) (requests : List (Request V)) :
    (queue.run requests).2.capacity = queue.capacity := by
  induction requests generalizing queue with
  | nil => rfl
  | cons request requests ih => exact (ih _).trans (queue.capacity_serve request)

end Admitted

/-! ## Caches follow -/

namespace Table

variable {α β : Type} [DecidableEq α]

theorem lookup_eq (a : α) (l : List (α × β)) : lookup a l = l.lookup a := by
  induction l with
  | nil => rfl
  | cons binding rest ih =>
    by_cases h : binding.1 = a
    · rw [lookup, if_pos h, List.lookup_cons, h, beq_self_eq_true]
    · rw [lookup, if_neg h, List.lookup_cons, beq_false_of_ne fun heq => h heq.symm, ih]

theorem bindings_of_keys {t : Table α β} {a : α} {b : β} {ks : List α} (hkeys : t.keys = a :: ks)
    (hb : t.get? a = some b) : ∃ rest, t.bindings = (a, b) :: rest := by
  obtain ⟨bindings⟩ := t
  obtain ⟨⟨a', b'⟩, rest, rfl, rfl, -⟩ := List.map_eq_cons_iff.mp hkeys
  rw [get?, lookup, if_pos rfl] at hb
  exact ⟨rest, by rw [Option.some.inj hb]⟩

theorem bindings_erase_head {t : Table α β} {a : α} {b : β} {rest : List (α × β)} (ht : t.bindings = (a, b) :: rest)
    (hnodup : t.keys.Nodup) : (t.erase a).bindings = rest := by
  rw [keys, ht, List.map_cons, List.nodup_cons] at hnodup
  rw [erase, ht, List.filter_cons_of_neg (by simp)]
  refine List.filter_eq_self.mpr fun binding hb => ?_
  rw [Bool.not_eq_true', decide_eq_false_iff_not]
  exact fun heq => hnodup.1 (List.mem_map.mpr ⟨binding, hb, heq⟩)

end Table

namespace PageCache

variable {cache : PageCache V} {queue : Admitted V}

/-- The values of the cache are those that were admitted and have not left, and its counts add up. -/
structure Follows (cache : PageCache V) (queue : Admitted V) : Prop where
  bounded : cache.Bounded
  capacity : cache.capacity = queue.capacity
  bindings : cache.entries.bindings = queue.entries
  lookups : cache.counters.hits + cache.counters.misses = queue.lookups
  admissions : cache.counters.evictions + queue.entries.length + queue.dropped = queue.admissions

theorem follows_ofCapacity (capacity : Nat) :
    (ofCapacity capacity : PageCache V).Follows (.ofCapacity capacity) :=
  ⟨bounded_ofCapacity capacity, rfl, rfl, rfl, rfl⟩

theorem Follows.get?_eq (h : cache.Follows queue) (ref : PageRef) :
    cache.entries.get? ref = queue.entries.lookup ref := by
  rw [Table.get?, Table.lookup_eq, h.bindings]

theorem Follows.size_eq (h : cache.Follows queue) : cache.size = queue.entries.length := by
  rw [size, Table.size, h.bindings]

theorem Follows.queue_eq (h : cache.Follows queue) : cache.order.queue = queue.entries.map Prod.fst := by
  rw [← h.bounded.keys, Table.keys, h.bindings]

theorem Follows.get (h : cache.Follows queue) (ref : PageRef) :
    (cache.get ref).1 = queue.entries.lookup ref
      ∧ (cache.get ref).2.Follows { queue with lookups := queue.lookups + 1 } := by
  rw [← h.get?_eq]
  cases hvalue : cache.entries.get? ref with
  | some value =>
    rw [get_of_kept hvalue]
    exact ⟨rfl, h.bounded.count _, h.capacity, h.bindings, by rw [← h.lookups]; exact Nat.succ_add _ _, h.admissions⟩
  | none =>
    rw [get_of_missing hvalue]
    exact ⟨rfl, h.bounded.count _, h.capacity, h.bindings, by rw [← h.lookups]; rfl, h.admissions⟩

theorem Follows.clear (h : cache.Follows queue) : cache.clear.Follows
    { queue with entries := [], dropped := queue.dropped + queue.entries.length } := by
  refine ⟨h.bounded.clear, h.capacity, rfl, h.lookups, ?_⟩
  show cache.counters.evictions + 0 + (queue.dropped + queue.entries.length) = queue.admissions
  rw [← h.admissions]
  omega

/-- What comes in takes the last place, and the first one has left if the cache was full. -/
theorem Follows.insert_of_absent (h : cache.Follows queue) {ref : PageRef} (hpos : 0 < cache.capacity)
    (habsent : cache.entries.get? ref = none) (value : V) : ∃ gone, cache.insert ref value
      = (value, gone, (cache.insert ref value).2.2) ∧ (queue.enqueue ref value).1 = .taken value gone
      ∧ (cache.insert ref value).2.2.Follows (queue.enqueue ref value).2 := by
  have hbounded := h.bounded.insert ref value
  have hcapacity := capacity_insert cache ref value
  have hnew : ref ∉ cache.entries.keys := fun hmem => by simpa [habsent] using Table.get?_isSome_iff.mpr hmem
  have hsize := h.size_eq
  rw [PageCache.size] at hsize
  unfold PageCache.insert at hbounded hcapacity ⊢
  rw [if_neg (Nat.pos_iff_ne_zero.mp hpos), habsent] at hbounded hcapacity ⊢
  dsimp only at hbounded hcapacity ⊢
  -- the table is in the order of the queue, so the one to leave is its first binding
  by_cases hfull : cache.capacity ≤ cache.entries.size
  · obtain ⟨victim, order, present, hout, hpresent, hroom⟩ := h.bounded.makeRoom_of_full hpos hfull
    obtain ⟨rest, hqueue, rfl⟩ := Fifo.evict?_eq_some_iff.mp hout
    obtain ⟨kept, hkept⟩ := Table.bindings_of_keys (h.bounded.keys.trans hqueue) hpresent
    have hbindings : (cache.entries.erase victim).bindings = kept :=
      Table.bindings_erase_head hkept (h.bounded.keys ▸ h.bounded.nodup)
    have hgone : ref ∉ (cache.entries.erase victim).keys := by
      rw [Table.keys_erase]
      exact fun hmem => hnew (List.mem_of_mem_filter hmem)
    have hentries : queue.entries = (victim, present) :: kept := h.bindings.symm.trans hkept
    rw [hroom] at hbounded hcapacity ⊢
    rw [Admitted.enqueue, if_neg (by rw [← hsize, ← h.capacity]; exact Nat.not_lt.mpr hfull), hentries]
    refine ⟨_, rfl, rfl, hbounded, hcapacity.trans h.capacity, ?_, h.lookups, ?_⟩
    · exact (Table.bindings_insert hgone value).trans (congrArg (· ++ _) hbindings)
    · have hcount := h.admissions
      rw [hentries] at hcount
      simp only [List.drop_succ_cons, List.drop_zero, List.length_append, List.length_cons, List.length_nil,
        Counters.countEviction] at hcount ⊢
      omega
  · rw [makeRoom_of_lt (Nat.not_le.mp hfull)] at hbounded hcapacity ⊢
    rw [Admitted.enqueue, if_pos (by rw [← hsize, ← h.capacity]; exact Nat.not_le.mp hfull)]
    refine ⟨_, rfl, rfl, hbounded, hcapacity.trans h.capacity, ?_, h.lookups, ?_⟩
    · rw [← h.bindings]
      exact Table.bindings_insert hnew value
    · have := h.admissions
      simp only [List.drop_zero, List.length_append, List.length_singleton]
      omega

/-- A resident stays as it is. -/
theorem Follows.insert_of_kept (h : cache.Follows queue) {ref : PageRef} {present : V}
    (hpresent : cache.entries.get? ref = some present) (value : V) :
    cache.insert ref value = (present, [], cache) := by
  have hpos : cache.capacity ≠ 0 := by
    have hmem := Table.get?_isSome_iff.mp (Option.isSome_of_eq_some hpresent)
    rw [h.bounded.keys] at hmem
    have := h.bounded.size_le
    have := List.length_pos_of_mem hmem
    omega
  rw [PageCache.insert, if_neg hpos, hpresent]

/-- One request keeps the cache in step. -/
theorem Follows.serve (h : cache.Follows queue) (request : Request V) :
    (cache.serve request).1 = (queue.serve request).1
      ∧ (cache.serve request).2.Follows (queue.serve request).2 := by
  cases request with
  | get ref =>
    obtain ⟨hvalue, hfollows⟩ := h.get ref
    exact ⟨congrArg Reply.found hvalue, hfollows⟩
  | clear => exact ⟨rfl, h.clear⟩
  | insert ref value =>
    rw [Admitted.serve, ← h.capacity, ← h.get?_eq]
    split
    · rename_i hzero
      rw [PageCache.serve, PageCache.insert, if_pos hzero]
      exact ⟨rfl, h⟩
    rename_i hpos
    split
    · rename_i present hpresent
      rw [PageCache.serve, h.insert_of_kept hpresent]
      exact ⟨rfl, h⟩
    · rename_i habsent
      obtain ⟨gone, hinsert, hreply, hfollows⟩ := h.insert_of_absent (Nat.pos_of_ne_zero hpos) habsent value
      rw [hreply, PageCache.serve, hinsert]
      exact ⟨rfl, hfollows⟩

theorem Follows.run (h : cache.Follows queue) (requests : List (Request V)) :
    (cache.run requests).1 = (queue.run requests).1 ∧ (cache.run requests).2.Follows (queue.run requests).2 := by
  induction requests generalizing cache queue with
  | nil => exact ⟨rfl, h⟩
  | cons request requests ih =>
    obtain ⟨hreply, hserved⟩ := h.serve request
    obtain ⟨hreplies, hfollows⟩ := ih hserved
    exact ⟨congr (congrArg List.cons hreply) hreplies, hfollows⟩

/-- Whatever is asked of a cache, it replies as a list of values does that takes new ones in at its end, up to the
capacity, and lets the first one go for one more. Afterwards the table has the values of the list, the queue and the set
of residents name them, in the order of admission and each once, and every look-up and every value that was admitted is
accounted for. Such a cache keeps a resident and its value when another value is brought for it, and looking up moves
nobody. -/
theorem run_eq_admitted (capacity : Nat) (requests : List (Request V)) : ∃ replies cache queue,
    (ofCapacity capacity : PageCache V).run requests = (replies, cache)
      ∧ (Admitted.ofCapacity capacity).run requests = (replies, queue)
      ∧ cache.size = queue.entries.length ∧ cache.size ≤ capacity
      ∧ cache.order.queue = queue.entries.map Prod.fst
      ∧ cache.order.queue.Nodup ∧ cache.order.resident.Perm cache.order.queue
      ∧ (∀ ref, cache.entries.get? ref = queue.entries.lookup ref)
      ∧ (∀ ref value present, cache.entries.get? ref = some present → cache.insert ref value = (present, [], cache))
      ∧ (∀ ref, (cache.get ref).2.entries = cache.entries ∧ (cache.get ref).2.order = cache.order)
      ∧ cache.counters.hits + cache.counters.misses = queue.lookups
      ∧ cache.counters.evictions + cache.size + queue.dropped = queue.admissions := by
  obtain ⟨hreplies, h⟩ := (follows_ofCapacity capacity).run requests
  refine ⟨_, _, _, rfl, Prod.ext hreplies.symm rfl, h.size_eq, ?_, h.queue_eq, h.bounded.nodup,
    h.bounded.order.resident, h.get?_eq, fun ref value present hpresent => h.insert_of_kept hpresent value, ?_,
    h.lookups, ?_⟩
  · have hsize := h.bounded.size_le
    rwa [← h.bounded.size_eq, h.capacity, Admitted.capacity_run] at hsize
  · intro ref
    unfold PageCache.get
    split <;> exact ⟨rfl, rfl⟩
  · rw [h.size_eq]
    exact h.admissions

end PageCache

end PagedIndex
