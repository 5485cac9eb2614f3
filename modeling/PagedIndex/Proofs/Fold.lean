import PagedIndex.Measure
import Mathlib.Algebra.Group.Nat.Defs
import Mathlib.Algebra.Ring.Int.Defs
import Mathlib.Data.List.Forall2
import Mathlib.Data.List.Perm.Basic

/-!
# What the values of the measures say

The values that `MeasureSet` keeps are folds, and a fold can be taken in any grouping and in any order:
`ofItems_append` and `ofItems_perm`. They are what the measures tell of the items as numbers
(`forall₂_tells_iff`). Everything a page does to its values rests on two consequences:
the fold over pages is the fold over all their items (`fold_ofItems`), and what `subtract` leaves when it
succeeds is the fold over the remaining items (`ofItems_of_subtract`). The second one is where minimum and
maximum need care: a value strictly inside the extreme can be taken out, and then the extreme stays.
-/

namespace PagedIndex

namespace Measure

variable {I : Type}

/-! ## One measure -/

/-- The value of a list of items, folded from scratch. -/
def total (measure : Measure I) (items : List I) : Int64 :=
  items.foldl (fun value item => measure.combine value (measure.ofItem item)) measure.identity

theorem combine_comm (measure : Measure I) (a b : Int64) :
    measure.combine a b = measure.combine b a := by
  cases measure with
  | count => exact Int64.add_comm a b
  | sum => exact Int64.add_comm a b
  | min =>
    simp only [combine]
    split <;> split
    · exact Int64.le_antisymm ‹_› ‹_›
    · rfl
    · rfl
    · have := Int64.le_total a b; tauto
  | max =>
    simp only [combine]
    split <;> split
    · exact Int64.le_antisymm ‹_› ‹_›
    · rfl
    · rfl
    · have := Int64.le_total a b; tauto

theorem combine_assoc (measure : Measure I) (a b c : Int64) :
    measure.combine (measure.combine a b) c = measure.combine a (measure.combine b c) := by
  cases measure with
  | count => exact Int64.add_assoc a b c
  | sum => exact Int64.add_assoc a b c
  | min =>
    simp only [combine, Int64.le_iff_toInt_le]
    grind
  | max =>
    simp only [combine, Int64.le_iff_toInt_le]
    grind

theorem identity_combine (measure : Measure I) (a : Int64) :
    measure.combine measure.identity a = a := by
  cases measure with
  | count => exact Int64.zero_add a
  | sum => exact Int64.zero_add a
  | min =>
    show (if Int64.maxValue ≤ a then Int64.maxValue else a) = a
    by_cases h : Int64.maxValue ≤ a
    · rw [if_pos h]
      exact Int64.le_antisymm h (Int64.le_maxValue a)
    · rw [if_neg h]
  | max =>
    show (if a ≤ Int64.minValue then Int64.minValue else a) = a
    by_cases h : a ≤ Int64.minValue
    · rw [if_pos h]
      exact Int64.le_antisymm (Int64.minValue_le a) h
    · rw [if_neg h]

theorem combine_identity (measure : Measure I) (a : Int64) :
    measure.combine a measure.identity = a := by
  rw [combine_comm, identity_combine]

/-- A value that could be taken out leaves what, together with it, makes up the whole. -/
theorem eq_of_without? {measure : Measure I} {rest part value : Int64}
    (h : measure.without? (measure.combine rest part) part = some value) : value = rest := by
  cases measure with
  | count =>
    simp only [without?, combine, Option.some.injEq] at h
    rw [← h, Int64.add_sub_cancel]
  | sum =>
    simp only [without?, combine, Option.some.injEq] at h
    rw [← h, Int64.add_sub_cancel]
  | min =>
    simp only [without?, combine] at h
    -- only what is above the least value can be taken out, and then the least one is in the rest
    split at h
    · split at h
      · exact (Option.some.inj h).symm
      · exact absurd h (by simp)
    · rw [if_neg (Int64.lt_irrefl)] at h
      exact absurd h (by simp)
  | max =>
    simp only [without?, combine] at h
    split at h
    · split at h
      · exact (Option.some.inj h).symm
      · exact absurd h (by simp)
    · rw [if_neg (Int64.lt_irrefl)] at h
      exact absurd h (by simp)

theorem foldl_combine (measure : Measure I) (items : List I) (a : Int64) :
    items.foldl (fun value item => measure.combine value (measure.ofItem item)) a
      = measure.combine a (measure.total items) := by
  induction items generalizing a with
  | nil => exact (measure.combine_identity a).symm
  | cons item items ih =>
    simp only [total, List.foldl_cons]
    rw [ih, ih, identity_combine, combine_assoc]

theorem total_append (measure : Measure I) (as bs : List I) :
    measure.total (as ++ bs) = measure.combine (measure.total as) (measure.total bs) := by
  rw [total, List.foldl_append, foldl_combine]
  rfl

theorem total_singleton (measure : Measure I) (item : I) :
    measure.total [item] = measure.ofItem item :=
  measure.identity_combine _

theorem total_perm (measure : Measure I) {as bs : List I} (h : as.Perm bs) :
    measure.total as = measure.total bs := by
  refine h.foldl_eq' (fun x _ y _ value => ?_) _
  rw [combine_assoc, combine_assoc, measure.combine_comm (measure.ofItem x)]

theorem total_cons (measure : Measure I) (item : I) (items : List I) :
    measure.total (item :: items) = measure.combine (measure.ofItem item) (measure.total items) := by
  rw [← List.singleton_append, total_append, total_singleton]

/-! ## Values as numbers -/

/-- One of the numbers, which comes before all of them. -/
def Foremost (before : Int64 → Int64 → Prop) (numbers : List Int64) (value : Int64) : Prop :=
  value ∈ numbers ∧ ∀ n ∈ numbers, before value n

/-- What a measure tells of some items, in terms of the numbers chosen from them: how many there are and what they add
up to, brought into the range of a word; or the least or the greatest of them, among which the last word or the first
one is counted. -/
def Tells : Measure I → List I → Int64 → Prop
  | count, items, value => value.toInt = (items.length : Int).bmod (2 ^ 64)
  | sum _ of, items, value => value.toInt = (items.map fun item => (of item).toInt).sum.bmod (2 ^ 64)
  | min _ of, items, value => Foremost (fun a b => a ≤ b) (Int64.maxValue :: items.map of) value
  | max _ of, items, value => Foremost (fun a b => b ≤ a) (Int64.minValue :: items.map of) value

section Foremost

variable {before : Int64 → Int64 → Prop} {bound value a b : Int64} {numbers : List Int64}

/-- With one number more, it or the one that was foremost comes first. -/
theorem Foremost.cons [DecidableRel before] (htotal : ∀ a b, before a b ∨ before b a)
    (htrans : ∀ a b c, before a b → before b c → before a c) (h : Foremost before (bound :: numbers) value)
    (a : Int64) : Foremost before (bound :: a :: numbers) (if before a value then a else value) := by
  obtain ⟨hmem, hfirst⟩ := h
  obtain ⟨hbound, hothers⟩ := List.forall_mem_cons.mp hfirst
  split
  · rename_i hbefore
    have hself : before a a := (htotal a a).elim id id
    refine ⟨by simp, List.forall_mem_cons.mpr ⟨htrans _ _ _ hbefore hbound, List.forall_mem_cons.mpr ⟨hself, ?_⟩⟩⟩
    exact fun n hn => htrans _ _ _ hbefore (hothers n hn)
  · rename_i hnot
    refine ⟨?_, List.forall_mem_cons.mpr ⟨hbound, List.forall_mem_cons.mpr ⟨?_, hothers⟩⟩⟩
    · exact (List.mem_cons.mp hmem).elim (fun heq => heq ▸ List.mem_cons_self)
        fun hmem => List.mem_cons_of_mem _ (List.mem_cons_of_mem _ hmem)
    · exact (htotal a value).resolve_left hnot

theorem Foremost.unique (hantisymm : ∀ a b, before a b → before b a → a = b) (h : Foremost before numbers a)
    (h' : Foremost before numbers b) : a = b :=
  hantisymm a b (h.2 b h'.1) (h'.2 a h.1)

end Foremost

/-- The value folded from scratch is what the measure tells. -/
theorem tells_total (measure : Measure I) (items : List I) : measure.Tells items (measure.total items) := by
  induction items with
  | nil =>
    cases measure with
    | count | sum => exact Int.zero_bmod.symm
    | min | max => exact ⟨List.mem_singleton_self _, fun n hn => List.mem_singleton.mp hn ▸ Int64.le_refl _⟩
  | cons item items ih =>
    rw [total_cons]
    cases measure with
    | count =>
      show (1 + total count items).toInt = _
      rw [Int64.toInt_add, show (total count items).toInt = _ from ih, Int.add_bmod_bmod, List.length_cons,
        Int.natCast_succ, Int.add_comm]
      rfl
    | sum name of =>
      show (of item + total (sum name of) items).toInt = _
      rw [Int64.toInt_add, show (total (sum name of) items).toInt = _ from ih, Int.add_bmod_bmod, List.map_cons,
        List.sum_cons]
    | min name of =>
      exact @Foremost.cons (fun a b => a ≤ b) _ _ _ _ Int64.le_total (fun _ _ _ => Int64.le_trans) ih (of item)
    | max name of =>
      exact @Foremost.cons (fun a b => b ≤ a) _ _ _ _ (fun a b => Int64.le_total b a)
        (fun _ _ _ h h' => Int64.le_trans h' h) ih (of item)

/-- A measure tells one thing only. -/
theorem Tells.unique {measure : Measure I} {items : List I} {a b : Int64} (h : measure.Tells items a)
    (h' : measure.Tells items b) : a = b := by
  cases measure with
  | count | sum => exact Int64.toInt_inj.mp (Eq.trans h (Eq.symm h'))
  | min => exact Foremost.unique (fun _ _ => Int64.le_antisymm) h h'
  | max => exact Foremost.unique (fun _ _ h h' => Int64.le_antisymm h' h) h h'

theorem tells_iff {measure : Measure I} {items : List I} {value : Int64} :
    measure.Tells items value ↔ value = measure.total items :=
  ⟨fun h => h.unique (measure.tells_total items), fun h => h ▸ measure.tells_total items⟩

/-- Items are counted without wrapping, as long as the count fits its word. -/
theorem toInt_total_count {items : List I} (h : items.length < 2 ^ 63) :
    ((count : Measure I).total items).toInt = items.length := by
  refine Eq.trans ((count : Measure I).tells_total items) ?_
  exact Int.bmod_eq_of_le (by omega) (by omega)

end Measure

namespace MeasureSet

variable {I : Type}

/-! ## All measures of an index -/

theorem add_map (measures : MeasureSet I) (f g : Measure I → Int64) :
    measures.add (measures.map f) (measures.map g)
      = measures.map fun measure => measure.combine (f measure) (g measure) := by
  induction measures with
  | nil => rfl
  | cons measure measures ih => simp only [List.map_cons, add, ih]

/-- The values of a list of items, measure by measure. -/
theorem ofItems_eq_map (measures : MeasureSet I) (items : List I) :
    measures.ofItems items = measures.map fun measure => measure.total items := by
  have key : ∀ (items : List I) (f : Measure I → Int64),
      (items.map measures.ofItem).foldl measures.add (measures.map f)
        = measures.map fun measure =>
            items.foldl (fun value item => measure.combine value (measure.ofItem item)) (f measure) := by
    intro items
    induction items with
    | nil => intro f; rfl
    | cons item items ih =>
      intro f
      rw [List.map_cons, List.foldl_cons, ofItem, add_map, ih]
      rfl
  exact key items Measure.identity

@[simp]
theorem length_ofItems (measures : MeasureSet I) (items : List I) :
    (measures.ofItems items).length = measures.length := by
  rw [ofItems_eq_map, List.length_map]

/-- The values of some items are what the measures tell, one after the other. -/
theorem forall₂_tells_iff {measures : MeasureSet I} {items : List I} {values : List Int64} :
    List.Forall₂ (fun measure value => measure.Tells items value) measures values
      ↔ values = measures.ofItems items := by
  simp only [Measure.tells_iff]
  rw [eq_comm, ofItems_eq_map, ← List.forall₂_eq_eq_eq, List.forall₂_map_left_iff]
  simp only [eq_comm]

theorem ofItems_singleton (measures : MeasureSet I) (item : I) :
    measures.ofItems [item] = measures.ofItem item := by
  rw [ofItems_eq_map, ofItem]
  exact List.map_congr_left fun measure _ => measure.total_singleton item

/-- The values of two lists of items together. -/
theorem ofItems_append (measures : MeasureSet I) (as bs : List I) :
    measures.ofItems (as ++ bs) = measures.add (measures.ofItems as) (measures.ofItems bs) := by
  simp only [ofItems_eq_map, add_map, Measure.total_append]

/-- The order of the items does not matter. -/
theorem ofItems_perm (measures : MeasureSet I) {as bs : List I} (h : as.Perm bs) :
    measures.ofItems as = measures.ofItems bs := by
  simp only [ofItems_eq_map]
  exact List.map_congr_left fun measure _ => measure.total_perm h

/-- The values of several pages together are those of all their items. -/
theorem fold_ofItems (measures : MeasureSet I) (parts : List (List I)) :
    measures.fold (parts.map measures.ofItems) = measures.ofItems parts.flatten := by
  have key : ∀ (parts : List (List I)) (items : List I),
      (parts.map measures.ofItems).foldl measures.add (measures.ofItems items)
        = measures.ofItems (items ++ parts.flatten) := by
    intro parts
    induction parts with
    | nil => intro items; rw [List.flatten_nil, List.append_nil]; rfl
    | cons part parts ih =>
      intro items
      rw [List.map_cons, List.foldl_cons, ← ofItems_append, ih, List.flatten_cons, List.append_assoc]
  exact key parts []

/-- One more item, wherever it comes in. -/
theorem add_ofItem (measures : MeasureSet I) {items more : List I} {item : I}
    (h : more.Perm (item :: items)) :
    measures.add (measures.ofItems items) (measures.ofItem item) = measures.ofItems more := by
  rw [← ofItems_singleton, ← ofItems_append]
  exact measures.ofItems_perm ((List.perm_append_singleton item items).trans h.symm)

theorem eq_of_subtract_map {measures : MeasureSet I} {rest part : Measure I → Int64} {values : List Int64}
    (h : measures.subtract (measures.map fun measure => measure.combine (rest measure) (part measure))
      (measures.map part) = (true, values)) : values = measures.map rest := by
  induction measures generalizing values with
  | nil => exact (Prod.mk.inj h).2.symm
  | cons measure measures ih =>
    rw [List.map_cons, List.map_cons, subtract] at h
    generalize hs : subtract measures _ (measures.map part) = s at h
    obtain ⟨exactly, others⟩ := s
    dsimp only at h
    split at h
    · rename_i value hw
      obtain ⟨rfl, rfl⟩ := Prod.mk.inj h
      rw [ih hs, Measure.eq_of_without? hw, List.map_cons]
    · exact absurd (Prod.mk.inj h).1 (by simp)

/-- What is left when the values of an item could be taken out is the fold over the other items. -/
theorem ofItems_of_subtract {measures : MeasureSet I} {items others : List I} {item : I}
    {values : List Int64} (h : measures.subtract (measures.ofItems items) (measures.ofItem item)
      = (true, values)) (hp : items.Perm (item :: others)) : values = measures.ofItems others := by
  rw [← measures.add_ofItem hp, ofItem, ofItems_eq_map, add_map] at h
  rw [ofItems_eq_map]
  exact eq_of_subtract_map h

/-- What is left when an item could be exchanged for another is the fold over the new items. -/
theorem ofItems_of_swap? {measures : MeasureSet I} {items others after : List I} {old new : I}
    {values : List Int64}
    (h : measures.swap? (measures.ofItems items) (measures.ofItem old) (measures.ofItem new) = some values)
    (hold : items.Perm (old :: others)) (hnew : after.Perm (new :: others)) :
    values = measures.ofItems after := by
  unfold swap? at h
  split at h
  · rename_i rest hs
    rw [← Option.some.inj h, ofItems_of_subtract hs hold]
    exact measures.add_ofItem hnew
  · exact absurd h (by simp)

/-- However some items are put in order and shared out among pages, the values of the pages together are those of
all items, which are what the measures tell of them. If the values of one of the items can be taken out, those of the
others are left, and with the values of another item added to them they are those of the items with one exchanged for
the other. The count of fewer than 2^63 items never wraps on the way. -/
theorem folds_agree (measures : MeasureSet I) (items : List I) :
    (∀ pages : List (List I), pages.flatten.Perm items →
      measures.fold (pages.map measures.ofItems) = measures.ofItems items)
    ∧ (∀ before item after values, items = before ++ item :: after →
      measures.subtract (measures.ofItems items) (measures.ofItem item) = (true, values) →
      values = measures.ofItems (before ++ after)
        ∧ ∀ other, measures.add values (measures.ofItem other) = measures.ofItems (before ++ other :: after))
    ∧ (items.length < 2 ^ 63 → ((.count : Measure I).total items).toInt = items.length)
    ∧ ∀ values, List.Forall₂ (fun measure value => measure.Tells items value) measures values
      ↔ values = measures.ofItems items := by
  refine ⟨fun pages hpages => ?_, fun before item after values hitems hsubtract => ?_, Measure.toInt_total_count,
    fun _ => forall₂_tells_iff⟩
  · rw [fold_ofItems]
    exact measures.ofItems_perm hpages
  · have hvalues : values = measures.ofItems (before ++ after) := by
      refine ofItems_of_subtract hsubtract ?_
      rw [hitems]
      exact List.perm_middle
    refine ⟨hvalues, fun other => ?_⟩
    rw [hvalues]
    exact measures.add_ofItem List.perm_middle

/-- Three numbers on two pages, in another order, and one of them, which is neither the least nor the greatest, given up
for another. -/
theorem folds_agree_three :
    ([[9], [5, -2]] : List (List Int64)).flatten.Perm [5, -2, 9]
    ∧ List.Forall₂ (fun (measure : Measure Int64) value => measure.Tells [5, -2, 9] value)
        [.count, .sum "sum" id, .min "min" id, .max "max" id] [3, 12, -2, 9]
    ∧ fold [.count, .sum "sum" id, .min "min" id, .max "max" id]
        ([[9], [5, -2]].map (ofItems [.count, .sum "sum" id, .min "min" id, .max "max" id])) = [3, 12, -2, 9]
    ∧ subtract [.count, .sum "sum" id, .min "min" id, .max "max" id] [3, 12, -2, 9] [1, 5, 5, 5]
      = (true, [2, 7, -2, 9])
    ∧ add [.count, .sum "sum" id, .min "min" id, .max "max" id] [2, 7, -2, 9] [1, 20, 20, 20]
      = ofItems [.count, .sum "sum" id, .min "min" id, .max "max" id] [20, -2, 9] := by
  have hperm : ([[9], [5, -2]] : List (List Int64)).flatten.Perm [5, -2, 9] := by decide
  have hsubtract : subtract [.count, .sum "sum" id, .min "min" id, .max "max" id] [3, 12, -2, 9] [1, 5, 5, 5]
      = (true, [2, 7, -2, 9]) := by decide
  obtain ⟨hfold, hexchange, -, htells⟩ := folds_agree [.count, .sum "sum" id, .min "min" id, .max "max" id] [5, -2, 9]
  exact ⟨hperm, (htells _).mpr (by decide), hfold _ hperm, hsubtract, (hexchange [] 5 [-2, 9] _ rfl hsubtract).2 20⟩

end MeasureSet

end PagedIndex
