/-!
# First in, first out

The order in which residents leave: the one that has been there longest goes first. Being used again
does not move a resident. Who is resident is kept apart from the order, so that nobody has to be looked
for in the queue; `Sound` says that the two agree.
-/

namespace PagedIndex

/-- Residents: in order, the oldest first, and as a set. -/
structure Fifo (α : Type) where
  queue : List α
  resident : List α
deriving DecidableEq

namespace Fifo

variable {α : Type}

/-- No residents. -/
def empty : Fifo α := ⟨[], []⟩

/-- How many residents there are. -/
def size (fifo : Fifo α) : Nat := fifo.resident.length

section

variable [DecidableEq α]

/-- Records a use: whoever is not resident yet becomes the youngest one. -/
def touch (fifo : Fifo α) (a : α) : Fifo α :=
  if a ∈ fifo.resident then fifo else ⟨fifo.queue ++ [a], a :: fifo.resident⟩

/-- Lets the oldest resident go. -/
def evict? (fifo : Fifo α) : Option (α × Fifo α) :=
  match fifo.queue with
  | [] => none
  | a :: rest => some (a, ⟨rest, fifo.resident.erase a⟩)

theorem evict?_eq_some_iff {fifo left : Fifo α} {a : α} : fifo.evict? = some (a, left) ↔
    ∃ rest, fifo.queue = a :: rest ∧ left = ⟨rest, fifo.resident.erase a⟩ := by
  unfold evict?
  cases fifo.queue with
  | nil => simp
  | cons b rest =>
    simp only [Option.some.injEq, Prod.mk.injEq, List.cons.injEq]
    constructor
    · rintro ⟨rfl, rfl⟩
      exact ⟨rest, ⟨rfl, rfl⟩, rfl⟩
    · rintro ⟨_, ⟨rfl, rfl⟩, rfl⟩
      exact ⟨rfl, rfl⟩

/-- Whoever leaves makes the queue shorter. -/
theorem length_of_evict? {fifo left : Fifo α} {a : α} (h : fifo.evict? = some (a, left)) :
    left.queue.length < fifo.queue.length := by
  obtain ⟨rest, hqueue, rfl⟩ := evict?_eq_some_iff.mp h
  rw [hqueue]
  exact Nat.lt_succ_self _

end

/-- The residents are those in the queue, each of them once. -/
structure Sound (fifo : Fifo α) : Prop where
  nodup : fifo.queue.Nodup
  resident : fifo.resident.Perm fifo.queue

theorem sound_empty : (empty : Fifo α).Sound := ⟨List.nodup_nil, .nil⟩

variable {fifo : Fifo α} {a : α}

theorem Sound.mem_iff (h : fifo.Sound) : a ∈ fifo.resident ↔ a ∈ fifo.queue := h.resident.mem_iff

variable [DecidableEq α]

theorem Sound.queue_touch (h : fifo.Sound) (ha : a ∉ fifo.queue) :
    (fifo.touch a).queue = fifo.queue ++ [a] := by
  rw [touch, if_neg (mt h.mem_iff.mp ha)]

theorem Sound.touch (h : fifo.Sound) (a : α) : (fifo.touch a).Sound := by
  unfold Fifo.touch
  split
  · exact h
  · rename_i ha
    refine ⟨List.nodup_append.mpr ⟨h.nodup, by simp, fun x hx y hy hxy => ?_⟩, ?_⟩
    · rw [List.mem_singleton.mp hy] at hxy
      exact ha (h.mem_iff.mpr (hxy ▸ hx))
    · exact (h.resident.cons a).trans (List.perm_append_singleton a fifo.queue).symm

/-- When the oldest is gone, the others are the residents. -/
theorem Sound.evicted (h : fifo.Sound) {left : Fifo α} (hout : fifo.evict? = some (a, left)) : left.Sound := by
  obtain ⟨rest, hqueue, rfl⟩ := evict?_eq_some_iff.mp hout
  have hperm := (hqueue ▸ h.resident).erase a
  rw [List.erase_cons_head] at hperm
  exact ⟨(List.nodup_cons.mp (hqueue ▸ h.nodup)).2, hperm⟩

end Fifo

end PagedIndex
