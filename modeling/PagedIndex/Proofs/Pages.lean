import PagedIndex.Page.Inner
import Mathlib.Data.List.Basic

/-!
# What the operations on one page do

Each operation on a page is said here in terms of the lists around the slot it works at, and so is the cut
in two (`Inner.exists_split`): the median leaves the separators, the children are dealt out to both sides,
and nothing changes its order.
-/

namespace PagedIndex

variable {K I : Type}

namespace Leaf

theorem insertAt?_eq {leaf : Leaf K I} {as bs : List (K × I)} (h : leaf.entries = as ++ bs)
    (entry : K × I) : leaf.insertAt? as.length entry = some { leaf with entries := as ++ entry :: bs } := by
  unfold insertAt? size
  rw [h, if_pos (by rw [List.length_append]; exact Nat.le_add_right _ _), List.take_left, List.drop_left]

theorem removeAt?_eq {leaf : Leaf K I} {as bs : List (K × I)} {entry : K × I}
    (h : leaf.entries = as ++ entry :: bs) :
    leaf.removeAt? as.length = some (entry, { leaf with entries := as ++ bs }) := by
  unfold removeAt?
  rw [h, List.getElem?_append_right (Nat.le_refl _), Nat.sub_self,
    List.eraseIdx_append_of_length_le (Nat.le_refl _), Nat.sub_self]
  rfl

theorem replaceAt?_eq {leaf : Leaf K I} {as bs : List (K × I)} {entry : K × I}
    (h : leaf.entries = as ++ entry :: bs) (item : I) : leaf.replaceAt? as.length item
      = some (entry.2, { leaf with entries := as ++ (entry.1, item) :: bs }) := by
  unfold replaceAt?
  rw [h, List.getElem?_append_right (Nat.le_refl _), Nat.sub_self]
  show some (entry.2, { leaf with entries := (as ++ entry :: bs).set as.length (entry.1, item) }) = _
  rw [List.set_append_right _ _ (Nat.le_refl _), Nat.sub_self]
  rfl

theorem splitAt?_eq {leaf : Leaf K I} {slot : Nat} (h : slot ≤ leaf.size) :
    leaf.splitAt? slot = some ({ leaf with entries := leaf.entries.take slot },
      { leaf with entries := leaf.entries.drop slot }) := by
  rw [splitAt?, if_pos h]

/-- The halves of a leaf, the one where an entry belongs having taken it. -/
theorem exists_halves {l : Leaf K I} {as bs : List (K × I)} (hcut : l.entries = as ++ bs) (half : Nat)
    (hle : half ≤ l.size) (e : K × I) :
    ∃ lower upper : Leaf K I, lower.entries ++ upper.entries = as ++ e :: bs ∧ lower.right = l.right
      ∧ upper.right = l.right ∧ half ≤ lower.size ∧ l.size - half ≤ upper.size
      ∧ lower.size + upper.size = l.size + 1
      ∧ (as.length < half →
        ({ l with entries := l.entries.take half } : Leaf K I).insertAt? as.length e = some lower
          ∧ upper = { l with entries := l.entries.drop half })
      ∧ (¬ as.length < half → lower = { l with entries := l.entries.take half }
        ∧ ({ l with entries := l.entries.drop half } : Leaf K I).insertAt? (as.length - half) e
          = some upper) := by
  have hsize : l.size = as.length + bs.length := by rw [Leaf.size, hcut, List.length_append]
  by_cases hlt : as.length < half
  · -- the entry belongs before the cut
    have htake : l.entries.take half = as ++ bs.take (half - as.length) := by
      rw [hcut, List.take_append, List.take_of_length_le (Nat.le_of_lt hlt)]
    have hdrop : l.entries.drop half = bs.drop (half - as.length) := by
      rw [hcut, List.drop_append, List.drop_of_length_le (Nat.le_of_lt hlt), List.nil_append]
    refine ⟨⟨as ++ e :: bs.take (half - as.length), l.right⟩, ⟨l.entries.drop half, l.right⟩, ?_, rfl, rfl,
      ?_, ?_, ?_, fun _ => ⟨Leaf.insertAt?_eq htake e, rfl⟩, fun h => absurd hlt h⟩
    · rw [hdrop, List.append_assoc, List.cons_append, List.take_append_drop]
    · rw [Leaf.size, List.length_append, List.length_cons, List.length_take]
      omega
    · exact Nat.le_of_eq List.length_drop.symm
    · rw [Leaf.size, Leaf.size, List.length_append, List.length_cons, List.length_take, hdrop,
        List.length_drop]
      omega
  · have hge := Nat.le_of_not_lt hlt
    -- the entry comes into the right half
    have hlen : (as.drop half).length = as.length - half := List.length_drop
    have htake : l.entries.take half = as.take half := by
      rw [hcut, List.take_append, Nat.sub_eq_zero_of_le hge, List.take_zero, List.append_nil]
    have hdrop : l.entries.drop half = as.drop half ++ bs := by
      rw [hcut, List.drop_append, Nat.sub_eq_zero_of_le hge, List.drop_zero]
    refine ⟨⟨l.entries.take half, l.right⟩, ⟨as.drop half ++ e :: bs, l.right⟩, ?_, rfl, rfl, ?_, ?_, ?_,
      fun h => absurd h hlt, fun _ => ⟨rfl, by rw [← hlen]; exact Leaf.insertAt?_eq hdrop e⟩⟩
    · rw [htake, ← List.append_assoc, List.take_append_drop]
    · rw [Leaf.size, htake, List.length_take]
      omega
    · show l.size - half ≤ (as.drop half ++ e :: bs).length
      rw [List.length_append, List.length_cons, hlen]
      omega
    · rw [Leaf.size, Leaf.size, htake, List.length_append, List.length_cons, List.length_take, hlen]
      omega

/-- Two leaves either fit into one or share their entries. -/
theorem merge_cases (a b : Leaf K I) (pageSize : Nat) :
    (a.size + b.size ≤ pageSize
      ∧ a.merge b pageSize = (.absorbed, ⟨a.entries ++ b.entries, b.right⟩, empty))
    ∨ (pageSize < a.size + b.size ∧ ∃ lower upper : Leaf K I, ∃ key,
      lower.entries ++ upper.entries = a.entries ++ b.entries ∧ lower.right = a.right
      ∧ upper.right = b.right ∧ upper.firstKey? = some key ∧ lower.size = (a.size + b.size) / 2
      ∧ lower.size + upper.size = a.size + b.size
      ∧ a.merge b pageSize = (.rebalanced key, lower, upper)) := by
  have hlen : (a.entries ++ b.entries).length = a.size + b.size := List.length_append
  rcases Nat.lt_or_ge pageSize (a.size + b.size) with hlt | hle
  · refine .inr ⟨hlt, ?_⟩
    generalize hes : a.entries ++ b.entries = es at hlen
    have hdrop : (es.drop (es.length / 2)).length = es.length - es.length / 2 := List.length_drop
    obtain ⟨e, rest, hrest⟩ : ∃ e rest, es.drop (es.length / 2) = e :: rest := by
      refine List.exists_cons_of_ne_nil (List.length_pos_iff.mp ?_)
      omega
    have htake : (es.take (es.length / 2)).length = es.length / 2 := by
      rw [List.length_take]
      omega
    refine ⟨⟨es.take (es.length / 2), a.right⟩, ⟨e :: rest, b.right⟩, e.1, ?_, rfl, rfl, rfl, ?_, ?_, ?_⟩
    · rw [← hrest, List.take_append_drop]
    · rw [← hlen]
      exact htake
    · rw [← hrest] at *
      show (es.take (es.length / 2)).length + (es.drop (es.length / 2)).length = _
      omega
    · unfold merge
      dsimp only
      rw [hes, if_neg (by omega), hrest]
  · refine .inl ⟨hle, ?_⟩
    unfold merge
    dsimp only
    rw [if_pos (by omega)]

end Leaf

namespace Inner

variable {inner : Inner K} {ks ks' : List K} {k : K} {cs cs' : List PageRef} {c : PageRef}

theorem insertAfter?_eq (hk : inner.keys = ks ++ ks') (hc : inner.children = cs ++ c :: cs')
    (hl : cs.length = ks.length) (key : K) (child : PageRef) :
    inner.insertAfter? ks.length key child = some ⟨ks ++ key :: ks', cs ++ c :: child :: cs'⟩ := by
  have htake : (cs ++ c :: cs').take (ks.length + 1) = cs ++ [c] := by
    rw [← hl, List.take_append, List.take_of_length_le (by omega)]
    simp
  have hdrop : (cs ++ c :: cs').drop (ks.length + 1) = cs' := by
    rw [← hl, List.drop_append, List.drop_of_length_le (by omega)]
    simp
  unfold insertAfter? size
  rw [hk, hc, if_pos, List.take_left, List.drop_left, htake, hdrop, List.append_assoc]
  · rfl
  · rw [List.length_append, List.length_append, List.length_cons]
    omega

theorem removeChild?_eq {d : PageRef} (hk : inner.keys = ks ++ k :: ks')
    (hc : inner.children = cs ++ c :: d :: cs') (hl : cs.length = ks.length) :
    inner.removeChild? (ks.length + 1) = some (k, d, ⟨ks ++ ks', cs ++ c :: cs'⟩) := by
  have hkey : (ks ++ k :: ks')[ks.length]? = some k := by
    rw [List.getElem?_append_right (Nat.le_refl _), Nat.sub_self]
    rfl
  have hchild : (cs ++ c :: d :: cs')[ks.length + 1]? = some d := by
    rw [List.getElem?_append_right (by omega), hl, Nat.add_sub_cancel_left]
    rfl
  have herase : (cs ++ c :: d :: cs').eraseIdx (ks.length + 1) = cs ++ c :: cs' := by
    rw [List.eraseIdx_append_of_length_le (by omega), hl, Nat.add_sub_cancel_left]
    rfl
  unfold removeChild?
  rw [hk, hc]
  dsimp only
  rw [hkey, hchild]
  dsimp only
  rw [herase, List.eraseIdx_append_of_length_le (Nat.le_refl _), Nat.sub_self]
  rfl

theorem setKey?_eq (hk : inner.keys = ks ++ k :: ks') (key : K) :
    inner.setKey? ks.length key = some { inner with keys := ks ++ key :: ks' } := by
  unfold setKey? size
  rw [hk, if_pos (by rw [List.length_append, List.length_cons]; omega),
    List.set_append_right _ _ (Nat.le_refl _), Nat.sub_self]
  rfl

/-- A page with a separator can be cut at its median. -/
theorem exists_split {α : Type} (f : α → PageRef) {keys : List K} {children : List α}
    (hl : children.length = keys.length + 1) (hne : 0 < keys.length) : ∃ ks median ks' cs cs',
    keys = ks ++ median :: ks' ∧ children = cs ++ cs' ∧ cs.length = ks.length + 1
      ∧ ks.length = keys.length / 2 ∧ (⟨keys, children.map f⟩ : Inner K).split?
        = some (median, ⟨ks, cs.map f⟩, ⟨ks', cs'.map f⟩) := by
  have hmid : keys.length / 2 < keys.length := Nat.div_lt_self hne (by omega)
  refine ⟨keys.take (keys.length / 2), keys[keys.length / 2], keys.drop (keys.length / 2 + 1),
    children.take (keys.length / 2 + 1), children.drop (keys.length / 2 + 1), ?_, ?_, ?_, ?_, ?_⟩
  · rw [List.getElem_cons_drop hmid, List.take_append_drop]
  · rw [List.take_append_drop]
  · rw [List.length_take, List.length_take]
    omega
  · rw [List.length_take]
    omega
  · unfold split? size
    dsimp only
    rw [if_pos (by rw [List.length_map]; omega), List.getElem?_eq_getElem hmid, List.map_take,
      List.map_drop]
    rfl

/-- Two pages and the separator between them either fit into one or are cut again. -/
theorem merge?_cases {α : Type} (f : α → PageRef) {ks ks' : List K} {cs cs' : List α}
    (hl : cs.length = ks.length + 1) (hl' : cs'.length = ks'.length + 1) (key : K) (pageSize : Nat) :
    (ks.length + 1 + ks'.length ≤ pageSize
      ∧ (⟨ks, cs.map f⟩ : Inner K).merge? key ⟨ks', cs'.map f⟩ pageSize
        = some (.absorbed, ⟨ks ++ key :: ks', (cs ++ cs').map f⟩, ⟨[], []⟩))
    ∨ (pageSize < ks.length + 1 + ks'.length ∧ ∃ ls median us xs ys,
      ks ++ key :: ks' = ls ++ median :: us ∧ cs ++ cs' = xs ++ ys ∧ xs.length = ls.length + 1
      ∧ ys.length = us.length + 1 ∧ ls.length = (ks.length + 1 + ks'.length) / 2
      ∧ ls.length + 1 + us.length = ks.length + 1 + ks'.length
      ∧ (⟨ks, cs.map f⟩ : Inner K).merge? key ⟨ks', cs'.map f⟩ pageSize
        = some (.rebalanced median, ⟨ls, xs.map f⟩, ⟨us, ys.map f⟩)) := by
  have hlen : (ks ++ key :: ks').length = ks.length + 1 + ks'.length := by
    rw [List.length_append, List.length_cons]
    omega
  have hkids : (cs ++ cs').length = (ks ++ key :: ks').length + 1 := by
    rw [hlen, List.length_append]
    omega
  rcases Nat.lt_or_ge pageSize (ks.length + 1 + ks'.length) with hlt | hle
  · obtain ⟨ls, median, us, xs, ys, hks, hcs, hxs, hmid, hsplit⟩ := exists_split f hkids (by omega)
    refine .inr ⟨hlt, ls, median, us, xs, ys, hks, hcs, hxs, ?_, by rw [hmid, hlen], ?_, ?_⟩
    · rw [hks, hcs, List.length_append, List.length_append, List.length_cons] at hkids
      omega
    · rw [hks, List.length_append, List.length_cons] at hlen
      omega
    · unfold merge?
      dsimp only
      rw [← List.map_append, if_neg (by rw [size, hlen]; omega), hsplit]
      rfl
  · refine .inl ⟨hle, ?_⟩
    unfold merge?
    dsimp only
    rw [← List.map_append, if_pos (by rw [size, hlen]; exact hle)]

end Inner

end PagedIndex
