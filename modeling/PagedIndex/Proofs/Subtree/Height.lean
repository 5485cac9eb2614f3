import PagedIndex.Proofs.Resident
import PagedIndex.Proofs.Subtree.Regular
import Mathlib.Algebra.Order.BigOperators.Group.List
import Mathlib.Algebra.Group.Action.Defs
import Mathlib.Algebra.Order.Group.Nat
import Mathlib.Tactic.Ring

/-!
# Trees are not high

Below the root every inner page has at least three children, so that a tree has many pages if it is high. There are
only so many names for pages. The same count over the entries says how many of them a tree of a given height has, at
least and at most.
-/

namespace PagedIndex

section Lists

variable {α β : Type} {as : List α} {f : α → List β} {n : Nat}

theorem mul_le_length_flatMap (h : ∀ a ∈ as, n ≤ (f a).length) : as.length * n ≤ (as.flatMap f).length := by
  rw [List.length_flatMap, ← List.length_map (f := fun a => (f a).length), ← smul_eq_mul]
  refine List.card_nsmul_le_sum _ _ fun m hm => ?_
  obtain ⟨a, ha, rfl⟩ := List.mem_map.mp hm
  exact h a ha

theorem length_flatMap_le (h : ∀ a ∈ as, (f a).length ≤ n) : (as.flatMap f).length ≤ as.length * n := by
  rw [List.length_flatMap, ← List.length_map (f := fun a => (f a).length), ← smul_eq_mul]
  refine List.sum_le_card_nsmul _ _ fun m hm => ?_
  obtain ⟨a, ha, rfl⟩ := List.mem_map.mp hm
  exact h a ha

end Lists

namespace Subtree

variable {K I : Type} {pageSize d : Nat} {t : Subtree K I}

/-- A filled inner page has three children. -/
theorem Regular.three_pow_le (hp : 4 ≤ pageSize) (h : t.Regular pageSize d) (ht : t.Filled pageSize) :
    3 ^ d ≤ t.refs.length := by
  induction h with
  | leaf => rw [refs_leaf]; exact Nat.le_refl 1
  | @inner d r m ks cs hl _ hf ih =>
    have hsize := ht.1
    rw [size_inner] at hsize
    have hchildren : cs.length * 3 ^ d ≤ (cs.flatMap refs).length :=
      mul_le_length_flatMap fun c hc => ih c hc (hf c hc)
    have hthree : 3 * 3 ^ d ≤ cs.length * 3 ^ d := Nat.mul_le_mul_right _ (by omega)
    rw [refs_inner, List.length_cons, Nat.pow_succ']
    omega

/-- There are not enough names for the pages of a higher tree. -/
theorem Whole.depth_le (hp : 4 ≤ pageSize) (h : t.Whole pageSize d) (hnd : t.refs.Nodup) : d ≤ 41 := by
  cases d with
  | zero => exact Nat.zero_le _
  | succ d =>
    obtain ⟨r, m, ks, cs, rfl, hl, hreg, hfilled⟩ := h.regular.eq_inner
    obtain ⟨c, hc⟩ : ∃ c, c ∈ cs := List.exists_mem_of_length_pos (by omega)
    have hbelow := (hreg c hc).three_pow_le hp (hfilled c hc)
    have hpart : c.refs.length ≤ (cs.flatMap refs).length :=
      (List.sublist_flatten_of_mem (List.mem_map_of_mem hc)).length_le
    have hnames := PageRef.length_le hnd fun r _ => r.id.toNat_lt
    rw [refs_inner, List.length_cons] at hnames
    refine Nat.succ_le_of_lt ((Nat.pow_lt_pow_iff_right (show 1 < 3 by decide)).mp ?_)
    calc 3 ^ d ≤ 2 ^ 64 := by omega
      _ < 3 ^ 41 := by decide

/-! ## How many entries a tree has -/

/-- Each level below a filled page has as many pages again for every separator a page has at least, and each leaf has
half its slots in use. -/
theorem Regular.le_length_entries (h : t.Regular pageSize d) (ht : t.Filled pageSize) :
    pageSize / 2 * (pageSize / 2 + 1) ^ d ≤ t.entries.length := by
  induction h with
  | leaf =>
    rw [entries_leaf, Nat.pow_zero, Nat.mul_one]
    exact ht.1
  | @inner d r m ks cs hl _ hf ih =>
    have hsize := ht.1
    rw [size_inner] at hsize
    rw [entries_inner]
    calc pageSize / 2 * (pageSize / 2 + 1) ^ (d + 1)
        = (pageSize / 2 + 1) * (pageSize / 2 * (pageSize / 2 + 1) ^ d) := by ring
      _ ≤ cs.length * (pageSize / 2 * (pageSize / 2 + 1) ^ d) := Nat.mul_le_mul_right _ (by omega)
      _ ≤ (cs.flatMap entries).length := mul_le_length_flatMap fun c hc => ih c hc (hf c hc)

theorem Regular.length_entries_le (h : t.Regular pageSize d) (ht : t.size ≤ pageSize) :
    t.entries.length ≤ pageSize * (pageSize + 1) ^ d := by
  induction h with
  | leaf =>
    rw [entries_leaf, Nat.pow_zero, Nat.mul_one]
    exact ht
  | @inner d r m ks cs hl _ hf ih =>
    rw [size_inner] at ht
    rw [entries_inner]
    calc (cs.flatMap entries).length
        ≤ cs.length * (pageSize * (pageSize + 1) ^ d) := length_flatMap_le fun c hc => ih c hc (hf c hc).2
      _ ≤ (pageSize + 1) * (pageSize * (pageSize + 1) ^ d) := Nat.mul_le_mul_right _ (by omega)
      _ = pageSize * (pageSize + 1) ^ (d + 1) := by ring

/-- An inner root may be less than half full, but it has two children. -/
theorem Whole.le_length_entries (h : t.Whole pageSize (d + 1)) :
    2 * (pageSize / 2) * (pageSize / 2 + 1) ^ d ≤ t.entries.length := by
  obtain ⟨r, m, ks, cs, rfl, hl, hreg, hfilled⟩ := h.regular.eq_inner
  have hpos := h.size_pos (Nat.succ_ne_zero d)
  rw [size_inner] at hpos
  rw [entries_inner, Nat.mul_assoc]
  calc 2 * (pageSize / 2 * (pageSize / 2 + 1) ^ d)
      ≤ cs.length * (pageSize / 2 * (pageSize / 2 + 1) ^ d) := Nat.mul_le_mul_right _ (by omega)
    _ ≤ (cs.flatMap entries).length :=
        mul_le_length_flatMap fun c hc => (hreg c hc).le_length_entries (hfilled c hc)

/-- A tree without entries is a leaf. -/
theorem Whole.depth_eq_zero (hp : 4 ≤ pageSize) (h : t.Whole pageSize d) (hempty : t.entries = []) : d = 0 := by
  cases d with
  | zero => rfl
  | succ d =>
    exact absurd hempty (h.regular.entries_ne_nil (by omega) (h.size_pos (Nat.succ_ne_zero d)))

end Subtree

end PagedIndex
