import PagedIndex.Proofs.Subtree.Routing

/-!
# What is stored under a key

`itemAt` is the item under a key in a list of entries, read off the list alone. An ascending tree keeps the
entries so that only one leaf has to be looked at (`itemAt_plugAll`), and there only one slot
(`Leaf.find?_eq_itemAt`). How putting an entry in or taking it out shows at every key is said once for lists
(`itemAt_insert`).
-/

namespace PagedIndex

variable {K I : Type} [Ord K]

/-- The item under a key in a list of entries. -/
def itemAt (key : K) (entries : List (K × I)) : Option I :=
  (entries.find? fun e => compare e.1 key == .eq).map Prod.snd

/-- No entry has the key. -/
def Absent (key : K) (entries : List (K × I)) : Prop := ∀ e ∈ entries, compare e.1 key ≠ .eq

theorem itemAt_eq_none {key : K} {entries : List (K × I)} :
    itemAt key entries = none ↔ Absent key entries := by
  unfold itemAt Absent
  rw [Option.map_eq_none_iff, List.find?_eq_none]
  simp

theorem itemAt_append_of_absent {key : K} {as : List (K × I)} (h : Absent key as)
    (bs : List (K × I)) : itemAt key (as ++ bs) = itemAt key bs := by
  have hnone : as.find? (fun e => compare e.1 key == .eq) = none := by
    rw [List.find?_eq_none]
    intro e he
    simpa using h e he
  rw [itemAt, List.find?_append, hnone, Option.none_or]
  rfl

theorem itemAt_append_absent {key : K} {bs : List (K × I)} (h : Absent key bs) (as : List (K × I)) :
    itemAt key (as ++ bs) = itemAt key as := by
  have hnone : bs.find? (fun e => compare e.1 key == .eq) = none := by
    rw [List.find?_eq_none]
    intro e he
    simpa using h e he
  rw [itemAt, List.find?_append, hnone, Option.or_none]
  rfl

theorem itemAt_cons_eq {key : K} {e : K × I} (h : compare e.1 key = .eq) (es : List (K × I)) :
    itemAt key (e :: es) = some e.2 := by
  rw [itemAt, List.find?_cons_of_pos (by simpa using h)]
  rfl

theorem absent_of_lt {key : K} {es : List (K × I)} (h : ∀ e ∈ es, compare e.1 key = .lt) :
    Absent key es := by
  intro e he heq
  rw [h e he] at heq
  exact absurd heq (by simp)

variable [Std.TransOrd K]

theorem absent_of_gt {key : K} {es : List (K × I)} (h : ∀ e ∈ es, compare key e.1 = .lt) :
    Absent key es := by
  intro e he heq
  have := Std.OrientedCmp.eq_symm heq
  rw [h e he] at this
  exact absurd this (by simp)

/-- An entry whose key no other one has answers for its own key and for no other. -/
theorem itemAt_insert {as bs : List (K × I)} {e : K × I} (h : Absent e.1 (as ++ bs)) (key : K) :
    itemAt key (as ++ e :: bs) = if compare e.1 key = .eq then some e.2 else itemAt key (as ++ bs) := by
  have hne : compare e.1 key = .eq → Absent key as := by
    intro heq a ha ha'
    refine h a (List.mem_append_left bs ha) ?_
    exact Std.TransCmp.eq_trans ha' (Std.OrientedCmp.eq_symm heq)
  split
  · rename_i heq
    rw [itemAt_append_of_absent (hne heq), itemAt_cons_eq heq]
  · rename_i heq
    rw [itemAt, itemAt, List.find?_append, List.find?_append, List.find?_cons_of_neg (by simpa using heq)]

/-! ## In a leaf -/

omit [Std.TransOrd K] in
theorem Leaf.position_seek (leaf : Leaf K I) (key : K) : (leaf.seek key).position = leaf.rank key false := by
  unfold Leaf.seek
  dsimp only
  split
  · split
    · rfl
    · split <;> rfl
  · rfl

omit [Std.TransOrd K] in
/-- A slot fits exactly if the entry in it has the key. -/
theorem Leaf.isExact_seek_eq_any (leaf : Leaf K I) (key : K) : (leaf.seek key).isExact
    = leaf.entries[leaf.rank key false]?.any fun e => compare e.1 key == .eq := by
  unfold Leaf.seek
  dsimp only
  cases leaf.entries[leaf.rank key false]? with
  | none => rfl
  | some e =>
    dsimp only [Option.any_some]
    by_cases heq : compare e.1 key = .eq
    · rw [heq]
      rfl
    · rw [if_neg (by simpa using heq), beq_eq_false_iff_ne.mpr heq]
      split <;> rfl

/-- A search cuts a leaf into the entries below the key and the others, and the key's own entry, if there
is one, comes first among these. -/
theorem Leaf.exists_cut {leaf : Leaf K I} (h : Increasing leaf.keys) (key : K) : ∃ as bs,
    leaf.entries = as ++ bs ∧ (leaf.seek key).position = as.length
      ∧ (∀ e ∈ as, compare e.1 key = .lt)
      ∧ ((∃ e bs', bs = e :: bs' ∧ compare e.1 key = .eq ∧ (leaf.seek key).isExact
          ∧ ∀ b ∈ bs', compare key b.1 = .lt)
        ∨ (leaf.seek key).isExact = false ∧ ∀ b ∈ bs, compare key b.1 = .lt) := by
  have hcut := (List.takeWhile_append_dropWhile (p := fun e : K × I => (compare e.1 key).isLT)
    (l := leaf.entries)).symm
  have hrank : leaf.rank key false
      = (leaf.entries.takeWhile fun e => (compare e.1 key).isLT).length := rfl
  have hlow : ∀ e ∈ leaf.entries.takeWhile (fun e => (compare e.1 key).isLT), compare e.1 key = .lt :=
    fun e he => by
      have := List.mem_takeWhile_imp (p := fun e : K × I => (compare e.1 key).isLT) he
      simpa using this
  have hhead : ∀ e ∈ (leaf.entries.dropWhile fun e => (compare e.1 key).isLT).head?,
      (compare e.1 key).isLT = false := by
    intro e he
    have := List.head?_dropWhile_not (fun e : K × I => (compare e.1 key).isLT) leaf.entries
    rw [Option.mem_def.mp he] at this
    exact this
  generalize leaf.entries.takeWhile (fun e => (compare e.1 key).isLT) = as at hcut hrank hlow
  generalize leaf.entries.dropWhile (fun e => (compare e.1 key).isLT) = bs at hcut hhead
  have hslot : leaf.entries[leaf.rank key false]? = bs.head? := by
    rw [hrank, hcut, List.getElem?_append_right (Nat.le_refl _), Nat.sub_self, List.head?_eq_getElem?]
  have hexact := leaf.isExact_seek_eq_any key
  rw [hslot] at hexact
  have hinc : (as ++ bs).Pairwise fun a b => compare a.1 b.1 = .lt := by
    rw [← hcut]
    exact List.pairwise_map.mp h
  refine ⟨as, bs, hcut, by rw [position_seek, hrank], hlow, ?_⟩
  cases bs with
  | nil => exact .inr ⟨hexact, fun b hb => absurd hb List.not_mem_nil⟩
  | cons e bs =>
    have hbs := (List.pairwise_cons.mp (List.pairwise_append.mp hinc).2.1).1
    rw [List.head?_cons, Option.any_some] at hexact
    -- the first entry that is not below the key has it, or is above it with all that follow
    by_cases heq : compare e.1 key = .eq
    · refine .inl ⟨e, bs, rfl, heq, by rw [hexact, heq]; rfl, fun b hb => ?_⟩
      exact Std.TransCmp.lt_of_eq_of_lt (Std.OrientedCmp.eq_symm heq) (hbs b hb)
    · have hgt : compare key e.1 = .lt := by
        have := hhead e rfl
        rw [← Std.OrientedCmp.gt_iff_lt]
        cases hc : compare e.1 key with
        | lt => rw [hc] at this; exact absurd this (by simp)
        | eq => exact absurd hc heq
        | gt => rfl
      refine .inr ⟨by rw [hexact, beq_eq_false_iff_ne.mpr heq], List.forall_mem_cons.mpr ⟨hgt, fun b hb => ?_⟩⟩
      exact Std.TransCmp.lt_trans hgt (hbs b hb)

theorem Leaf.find?_eq_itemAt {leaf : Leaf K I} (h : Increasing leaf.keys) (key : K) :
    leaf.find? key = itemAt key leaf.entries := by
  obtain ⟨as, bs, hcut, hpos, hlow, ⟨e, bs', rfl, heq, hex, _⟩ | ⟨hex, hhigh⟩⟩ := leaf.exists_cut h key
  · rw [find?, if_pos hex, hpos, hcut, itemAt_append_of_absent (absent_of_lt hlow), itemAt_cons_eq heq,
      List.getElem?_append_right (Nat.le_refl _), Nat.sub_self]
    rfl
  · rw [find?, if_neg (by simp [hex]), hcut, itemAt_append_of_absent (absent_of_lt hlow)]
    exact (itemAt_eq_none.mpr (absent_of_gt hhigh)).symm

theorem Leaf.isExact_seek {leaf : Leaf K I} (h : Increasing leaf.keys) (key : K) :
    (leaf.seek key).isExact = (itemAt key leaf.entries).isSome := by
  obtain ⟨as, bs, hcut, _, hlow, ⟨e, bs', rfl, heq, hex, _⟩ | ⟨hex, hhigh⟩⟩ := leaf.exists_cut h key
  · rw [hex, hcut, itemAt_append_of_absent (absent_of_lt hlow), itemAt_cons_eq heq]
    rfl
  · rw [hex, hcut, itemAt_append_of_absent (absent_of_lt hlow), itemAt_eq_none.mpr (absent_of_gt hhigh)]
    rfl

/-! ## In a tree -/

namespace Spine

variable {pageSize d : Nat} {fs : List (Frame K I)} {key : K}

/-- The entries left of the way to a key are below it. -/
theorem lt_of_mem_low (h : Fits pageSize d fs) (hr : ∀ f ∈ fs, f.Routes key) (ha : Ascending (before fs)) :
    ∀ e ∈ (low fs).flatMap Subtree.entries, compare e.1 key = .lt := by
  intro e he
  rw [← entries_before, List.mem_filterMap] at he
  obtain ⟨s, hs, hse⟩ := he
  obtain rfl := Stop.entry?_eq_some.mp hse
  exact before_key h hr ha hs (t := .separator key) rfl

/-- The entries right of the way to a key are above it. -/
theorem lt_of_mem_high (h : Fits pageSize d fs) (hr : ∀ f ∈ fs, f.Routes key) (ha : Ascending (after fs)) :
    ∀ e ∈ (high fs).flatMap Subtree.entries, compare key e.1 = .lt := by
  intro e he
  rw [← entries_after, List.mem_filterMap] at he
  obtain ⟨s, hs, hse⟩ := he
  obtain rfl := Stop.entry?_eq_some.mp hse
  exact after_key h hr ha hs

/-- What is stored under a key is stored at the end of the way to it. -/
theorem itemAt_plugAll (h : Fits pageSize d fs) (hr : ∀ f ∈ fs, f.Routes key) {t : Subtree K I}
    (ha : Ascending (plugAll fs t).walk) : itemAt key (plugAll fs t).entries = itemAt key t.entries := by
  rw [walk_plugAll h] at ha
  obtain ⟨hleft, hafter, _⟩ := List.pairwise_append.mp ha
  have hbefore := (List.pairwise_append.mp hleft).1
  rw [entries_plugAll, itemAt_append_absent (absent_of_gt (lt_of_mem_high h hr hafter)),
    itemAt_append_of_absent (absent_of_lt (lt_of_mem_low h hr hbefore))]

end Spine

end PagedIndex
