import PagedIndex.Proofs.Subtree.Basic
import Mathlib.Data.List.Basic

/-!
# The walk through a tree

One who walks through a tree from left to right meets its entries and, between two subtrees, the separator
that divides them. A tree is in order exactly when this one list is (`Ascending`), and that is the reason
for looking at it: cutting an inner page in two, joining two of them, or putting a new root on top changes
no walk at all, so order has to be argued for leaves alone.
-/

namespace PagedIndex

/-- What a walk through a tree meets. -/
inductive Stop (K I : Type) where
  | entry (entry : K × I)
  | separator (key : K)

namespace Stop

variable {K I : Type}

/-- The key of an entry or separator. -/
def key : Stop K I → K
  | .entry e => e.1
  | .separator key => key

/-- The entry, if it is one. -/
def entry? : Stop K I → Option (K × I)
  | .entry e => some e
  | .separator _ => none

theorem entry?_eq_some {s : Stop K I} {e : K × I} : entry? s = some e ↔ s = .entry e := by
  unfold entry?
  cases s <;> simp

/-- How a stop lies to one that is met later: entries are below all that follows, and a separator is at
most what follows, since it belongs to what lies right of it. -/
def Before [Ord K] : Stop K I → Stop K I → Prop
  | .entry e, s => compare e.1 s.key = .lt
  | .separator k, s => (compare k s.key).isLE

variable [Ord K]

theorem Before.isLE {a b : Stop K I} (h : a.Before b) : (compare a.key b.key).isLE := by
  cases a with
  | entry e => exact Ordering.isLE_of_eq_lt h
  | separator k => exact h

/-- Only the key of a later stop matters. -/
theorem Before.congr {a b c : Stop K I} (h : a.Before b) (hk : b.key = c.key) : a.Before c := by
  cases a with
  | entry e => rwa [Before, ← hk]
  | separator k => rwa [Before, ← hk]

theorem before_of_lt {a b : Stop K I} (h : compare a.key b.key = .lt) : a.Before b := by
  cases a with
  | entry e => exact h
  | separator k => exact Ordering.isLE_of_eq_lt h

theorem Before.trans [Std.TransOrd K] {a b c : Stop K I} (h : a.Before b) (h' : b.Before c) : a.Before c := by
  cases a with
  | entry e => exact Std.TransCmp.lt_of_lt_of_isLE h h'.isLE
  | separator k => exact Std.TransCmp.isLE_trans h h'.isLE

end Stop

/-- Every stop lies properly to all that come after it. -/
def Ascending {K I : Type} [Ord K] (walk : List (Stop K I)) : Prop := walk.Pairwise Stop.Before

/-! ## Small changes of a walk -/

section Change

variable {K I : Type} [Ord K] {u v : List (Stop K I)}

/-- An entry that belongs between two parts of a walk may be put there. -/
theorem Ascending.insert {e : K × I} (h : Ascending (u ++ v)) (hu : ∀ s ∈ u, s.Before (.entry e))
    (hv : ∀ s ∈ v, compare e.1 s.key = .lt) : Ascending (u ++ .entry e :: v) := by
  obtain ⟨hu', hv', huv⟩ := List.pairwise_append.mp h
  refine List.pairwise_append.mpr ⟨hu', List.pairwise_cons.mpr ⟨hv, hv'⟩, fun s hs t ht => ?_⟩
  rcases List.mem_cons.mp ht with rfl | ht
  · exact hu s hs
  · exact huv s hs t ht

/-- Another item may stand under the key of an entry. -/
theorem Ascending.swap {e e' : K × I} (h : Ascending (u ++ .entry e :: v)) (hk : e'.1 = e.1) :
    Ascending (u ++ .entry e' :: v) := by
  obtain ⟨hu, hev, huv⟩ := List.pairwise_append.mp h
  obtain ⟨he, hv⟩ := List.pairwise_cons.mp hev
  have hmid : ∀ t ∈ v, (Stop.entry e' : Stop K I).Before t := fun t ht => by
    rw [Stop.Before, hk]
    exact he t ht
  refine List.pairwise_append.mpr ⟨hu, List.pairwise_cons.mpr ⟨hmid, hv⟩, fun s hs t ht => ?_⟩
  rcases List.mem_cons.mp ht with rfl | ht
  · exact (huv s hs _ List.mem_cons_self).congr hk.symm
  · exact huv s hs t (List.mem_cons_of_mem _ ht)

/-- The key of an entry separates it from all that comes before. -/
theorem Ascending.separate [Std.TransOrd K] {e : K × I} (h : Ascending (u ++ .entry e :: v)) :
    Ascending (u ++ .separator e.1 :: .entry e :: v) := by
  obtain ⟨hu, hv, huv⟩ := List.pairwise_append.mp h
  refine List.pairwise_append.mpr ⟨hu, List.pairwise_cons.mpr ⟨fun t ht => ?_, hv⟩, fun s hs t ht => ?_⟩
  · rcases List.mem_cons.mp ht with rfl | ht
    · exact Std.ReflCmp.isLE_rfl
    · exact Ordering.isLE_of_eq_lt ((List.pairwise_cons.mp hv).1 t ht)
  · rcases List.mem_cons.mp ht with rfl | ht
    -- what lies before the entry lies before its key in the same way
    · have hse := huv s hs (.entry e) List.mem_cons_self
      cases s with
      | entry e' => exact hse
      | separator k => exact hse
    · exact huv s hs t ht

end Change

/-! ## Weaving -/

section Weave

variable {K I : Type}

/-- Parts with separators between them; separators that are left over are dropped. -/
def weave : List K → List (List (Stop K I)) → List (Stop K I)
  | _, [] => []
  | [], part :: parts => part ++ weave [] parts
  | key :: keys, part :: parts => part ++ .separator key :: weave keys parts

/-- What follows the first part. -/
def trail : List K → List (List (Stop K I)) → List (Stop K I)
  | [], parts => weave [] parts
  | key :: keys, parts => .separator key :: weave keys parts

theorem weave_cons (keys : List K) (part : List (Stop K I)) (parts : List (List (Stop K I))) :
    weave keys (part :: parts) = part ++ trail keys parts := by
  cases keys <;> rfl

/-- Where as many separators as parts go before, nothing of what follows is touched. -/
theorem weave_append {keys : List K} {parts : List (List (Stop K I))}
    (h : keys.length = parts.length) (keys' : List K) (parts' : List (List (Stop K I))) :
    weave (keys ++ keys') (parts ++ parts') = weave keys parts ++ weave keys' parts' := by
  induction keys generalizing parts with
  | nil =>
    rw [List.length_nil] at h
    rw [List.length_eq_zero_iff.mp h.symm]
    rfl
  | cons key keys ih =>
    cases parts with
    | nil => exact absurd h (by simp)
    | cons part parts =>
      rw [List.cons_append, List.cons_append, weave, weave, ih (by simpa using h), List.append_assoc,
        List.cons_append]

/-- Where there is one part more than separators, what follows starts with a separator. -/
theorem weave_append_trail {keys : List K} {parts : List (List (Stop K I))}
    (h : parts.length = keys.length + 1) (keys' : List K) (parts' : List (List (Stop K I))) :
    weave (keys ++ keys') (parts ++ parts') = weave keys parts ++ trail keys' parts' := by
  induction keys generalizing parts with
  | nil =>
    obtain ⟨part, rfl⟩ := List.length_eq_one_iff.mp h
    rw [List.nil_append, List.singleton_append, weave_cons, weave, weave, List.append_nil]
  | cons k keys ih =>
    cases parts with
    | nil => exact absurd h (by simp)
    | cons part parts =>
      rw [List.cons_append, List.cons_append, weave, weave, ih (by simpa using h), List.append_assoc,
        List.cons_append]

theorem mem_weave {s : Stop K I} {keys : List K} {parts : List (List (Stop K I))}
    (h : s ∈ weave keys parts) : (∃ part ∈ parts, s ∈ part) ∨ ∃ key ∈ keys, s = .separator key := by
  induction parts generalizing keys with
  | nil => exact absurd h (by simp [weave])
  | cons part parts ih =>
    cases keys with
    | nil =>
      rcases List.mem_append.mp h with h | h
      · exact .inl ⟨part, List.mem_cons_self, h⟩
      · rcases ih h with ⟨p, hp, hs⟩ | ⟨_, hk, _⟩
        · exact .inl ⟨p, List.mem_cons_of_mem part hp, hs⟩
        · exact absurd hk List.not_mem_nil
    | cons key keys =>
      rcases List.mem_append.mp h with h | h
      · exact .inl ⟨part, List.mem_cons_self, h⟩
      · rcases List.mem_cons.mp h with h | h
        · exact .inr ⟨key, List.mem_cons_self, h⟩
        · rcases ih h with ⟨p, hp, hs⟩ | ⟨k, hk, hs⟩
          · exact .inl ⟨p, List.mem_cons_of_mem part hp, hs⟩
          · exact .inr ⟨k, List.mem_cons_of_mem key hk, hs⟩

theorem separators_sublist_weave {keys : List K} {parts : List (List (Stop K I))}
    (h : keys.length ≤ parts.length) : (keys.map Stop.separator).Sublist (weave keys parts) := by
  induction keys generalizing parts with
  | nil => exact List.nil_sublist _
  | cons key keys ih =>
    cases parts with
    | nil => exact absurd h (by simp)
    | cons part parts =>
      rw [weave, List.map_cons]
      exact ((ih (by simpa using h)).cons_cons _).trans (List.sublist_append_right _ _)

theorem separator_mem_weave {key : K} {keys : List K} {parts : List (List (Stop K I))}
    (h : keys.length ≤ parts.length) (hk : key ∈ keys) : .separator key ∈ weave keys parts :=
  (separators_sublist_weave h).subset (List.mem_map_of_mem hk)

theorem part_sublist_weave {part : List (Stop K I)} {keys : List K} {parts : List (List (Stop K I))}
    (h : part ∈ parts) : part.Sublist (weave keys parts) := by
  induction parts generalizing keys with
  | nil => exact absurd h List.not_mem_nil
  | cons p parts ih =>
    rw [weave_cons]
    rcases List.mem_cons.mp h with rfl | h
    · exact List.sublist_append_left _ _
    · refine (?_ : List.Sublist part _).trans (List.sublist_append_right _ _)
      cases keys with
      | nil => exact ih h
      | cons key keys => exact (ih h).cons _

theorem entries_weave (keys : List K) (parts : List (List (Stop K I))) :
    (weave keys parts).filterMap Stop.entry? = parts.flatMap (List.filterMap Stop.entry?) := by
  induction parts generalizing keys with
  | nil => rfl
  | cons part parts ih =>
    rw [weave_cons, List.filterMap_append, List.flatMap_cons]
    cases keys with
    | nil => rw [trail, ih]
    | cons key keys => rw [trail, List.filterMap_cons_none rfl, ih]

theorem entries_trail (keys : List K) (parts : List (List (Stop K I))) :
    (trail keys parts).filterMap Stop.entry? = parts.flatMap (List.filterMap Stop.entry?) := by
  have h := entries_weave keys ([] :: parts)
  rwa [weave_cons, List.nil_append, List.flatMap_cons, List.filterMap_nil, List.nil_append] at h

end Weave

namespace Subtree

variable {K I : Type}

/-! ## The walk -/

/-- What a walk through the tree meets, from left to right. -/
def walk : Subtree K I → List (Stop K I)
  | .leaf _ _ l => l.entries.map .entry
  | .inner _ _ keys children => weave keys (children.map walk)

theorem walk_leaf (r : PageRef) (m : List Int64) (l : Leaf K I) :
    (Subtree.leaf r m l).walk = l.entries.map .entry := by rw [walk]

theorem walk_inner (r : PageRef) (m : List Int64) (ks : List K) (cs : List (Subtree K I)) :
    (Subtree.inner r m ks cs).walk = weave ks (cs.map walk) := by rw [walk]

theorem entries_map_entry (es : List (K × I)) : (es.map Stop.entry).filterMap Stop.entry? = es := by
  rw [List.filterMap_map]
  exact List.filterMap_some

/-- The entries of a tree are those that the walk meets. -/
theorem entries_walk (t : Subtree K I) : t.walk.filterMap Stop.entry? = t.entries := by
  induction t using subtrees.induct with
  | case1 r m l => rw [walk_leaf, entries_leaf, entries_map_entry]
  | case2 r m ks cs ih =>
    rw [walk_inner, entries_inner, entries_weave, List.flatMap_map]
    exact List.flatMap_congr ih

theorem entry_mem_walk {t : Subtree K I} {e : K × I} : .entry e ∈ t.walk ↔ e ∈ t.entries := by
  rw [← entries_walk, List.mem_filterMap]
  constructor
  · intro h
    exact ⟨.entry e, h, rfl⟩
  · rintro ⟨s, hs, he⟩
    rwa [Stop.entry?_eq_some.mp he] at hs

/-- The walk, cut around a child. -/
theorem walk_eq_around {ks : List K} {cs : List (Subtree K I)} (hl : cs.length = ks.length + 1)
    {i : Nat} {c : Subtree K I} (hc : cs[i]? = some c) :
    weave ks (cs.map walk) = weave (ks.take i) ((cs.take i).map walk) ++ c.walk
      ++ trail (ks.drop i) ((cs.drop (i + 1)).map walk) := by
  obtain ⟨hi, rfl⟩ := List.getElem?_eq_some_iff.mp hc
  have hlen : (ks.take i).length = ((cs.take i).map walk).length := by
    rw [List.length_map, List.length_take, List.length_take]; omega
  have hcs : cs.map walk = (cs.take i).map walk ++ (cs[i].walk :: (cs.drop (i + 1)).map walk) := by
    rw [← List.map_cons, List.getElem_cons_drop hi, ← List.map_append, List.take_append_drop]
  rw [hcs]
  conv_lhs => rw [← List.take_append_drop i ks]
  rw [weave_append hlen, weave_cons, List.append_assoc]

theorem walk_sublist_of_mem {s t : Subtree K I} (h : s ∈ t.subtrees) : s.walk.Sublist t.walk := by
  induction t using subtrees.induct with
  | case1 r m l =>
    rw [subtrees_leaf, List.mem_singleton] at h
    rw [h]
  | case2 r m ks cs ih =>
    rcases mem_subtrees_inner.mp h with rfl | ⟨c, hc, hs⟩
    · exact List.Sublist.refl _
    · rw [walk_inner]
      exact (ih c hc hs).trans (part_sublist_weave (List.mem_map_of_mem hc))

end Subtree

end PagedIndex
