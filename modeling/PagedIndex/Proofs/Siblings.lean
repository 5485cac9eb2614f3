import PagedIndex.Proofs.Pages

/-!
# Two neighbours and the slots they have

Two neighbouring pages are merged into one or share what they have anew, and an inner page is cut in two. `MergesTo`
and `Cut` say which of it happens and what the pages have then: nothing is lost and nothing changes its order, and
what is shared out is shared out evenly. So a page that lacks a slot lacks none after it was merged with a neighbour
that is filled (`merge_and_split`).
-/

namespace PagedIndex

variable {K I : Type}

/-- The pages that remain of two that were merged. -/
def Merged.remaining {α : Type} : Merged K × α × α → List α
  | (.absorbed, left, _) => [left]
  | (.rebalanced _, left, right) => [left, right]

namespace Leaf

/-- What becomes of two leaves. -/
inductive MergesTo (left right : Leaf K I) (pageSize : Nat) : Merged K × Leaf K I × Leaf K I → Prop
  /-- Where their entries fit into one page, the left leaf has them all, and the next leaf is that of the right one. -/
  | absorbed (hfits : left.size + right.size ≤ pageSize) :
    MergesTo left right pageSize (.absorbed, ⟨left.entries ++ right.entries, right.right⟩, empty)
  | rebalanced {lower upper : Leaf K I} {separator : K} (hlong : pageSize < left.size + right.size)
    (hentries : lower.entries ++ upper.entries = left.entries ++ right.entries)
    (hle : lower.size ≤ upper.size) (hge : upper.size ≤ lower.size + 1)
    (hfirst : upper.firstKey? = some separator) (hleft : lower.right = left.right)
    (hright : upper.right = right.right) :
    MergesTo left right pageSize (.rebalanced separator, lower, upper)

variable {left right : Leaf K I} {pageSize : Nat} {merged : Merged K × Leaf K I × Leaf K I}

theorem mergesTo_merge (left right : Leaf K I) (pageSize : Nat) :
    left.MergesTo right pageSize (left.merge right pageSize) := by
  rcases left.merge_cases right pageSize with
    ⟨hfits, hmerge⟩ | ⟨hlong, lower, upper, separator, hentries, hleft, hright, hfirst, hhalf, hsum, hmerge⟩
  · rw [hmerge]
    exact .absorbed hfits
  · rw [hmerge]
    exact .rebalanced hlong hentries (by omega) (by omega) hfirst hleft hright

/-- The leaves that remain are filled if what the two had fills one leaf and no more than two. -/
theorem MergesTo.filled (h : left.MergesTo right pageSize merged) (hlo : pageSize / 2 ≤ left.size + right.size)
    (hleft : left.size ≤ pageSize) (hright : right.size ≤ pageSize) :
    ∀ page ∈ Merged.remaining merged, pageSize / 2 ≤ page.size ∧ page.size ≤ pageSize := by
  cases h with
  | absorbed hfits =>
    rw [Merged.remaining, List.forall_mem_singleton, size, List.length_append]
    exact ⟨hlo, hfits⟩
  | @rebalanced lower upper _ hlong hentries hle hge =>
    have hsum : lower.size + upper.size = left.size + right.size := by
      have h := congrArg List.length hentries
      rwa [List.length_append, List.length_append] at h
    rw [Merged.remaining, List.forall_mem_cons, List.forall_mem_singleton]
    omega

end Leaf

namespace Inner

/-- A page of the proper shape has one more child than separators. -/
def Proper (inner : Inner K) : Prop := inner.children.length = inner.keys.length + 1

instance (inner : Inner K) : Decidable inner.Proper := inferInstanceAs (Decidable (_ = _))

/-- All that two neighbours have, with the separator between them. -/
def joined (left : Inner K) (separator : K) (right : Inner K) : Inner K :=
  ⟨left.keys ++ separator :: right.keys, left.children ++ right.children⟩

/-- Two pages of the proper shape that have what a page has, but for the separator between them, each of them half of
it. -/
structure Cut (whole : Inner K) (median : K) (lower upper : Inner K) : Prop where
  eq_joined : whole = lower.joined median upper
  lower_proper : lower.Proper
  upper_proper : upper.Proper
  size_le : upper.size ≤ lower.size
  le_size : lower.size ≤ upper.size + 1

/-- What becomes of two inner pages. -/
inductive MergesTo (left : Inner K) (separator : K) (right : Inner K) (pageSize : Nat) :
    Merged K × Inner K × Inner K → Prop
  | absorbed (hfits : left.size + 1 + right.size ≤ pageSize) (hproper : (left.joined separator right).Proper) :
    MergesTo left separator right pageSize (.absorbed, left.joined separator right, ⟨[], []⟩)
  | rebalanced {median : K} {lower upper : Inner K} (hlong : pageSize < left.size + 1 + right.size)
    (hcut : (left.joined separator right).Cut median lower upper) :
    MergesTo left separator right pageSize (.rebalanced median, lower, upper)

variable {left right lower upper whole : Inner K} {separator median : K} {pageSize : Nat}
  {merged : Merged K × Inner K × Inner K}

theorem size_joined (left : Inner K) (separator : K) (right : Inner K) :
    (left.joined separator right).size = left.size + 1 + right.size := by
  rw [size, joined, List.length_append, List.length_cons, size, size]
  omega

theorem Proper.joined (hleft : left.Proper) (hright : right.Proper) (separator : K) :
    (left.joined separator right).Proper := by
  unfold Proper at *
  rw [Inner.joined, List.length_append, List.length_append, List.length_cons, hleft, hright]
  omega

/-- A page with a separator is cut. -/
theorem Proper.exists_cut (h : whole.Proper) (hne : 1 ≤ whole.size) :
    ∃ median lower upper, whole.split? = some (median, lower, upper) ∧ whole.Cut median lower upper := by
  obtain ⟨ks, median, ks', cs, cs', hkeys, hchildren, hlen, hhalf, hsplit⟩ := exists_split id h hne
  rw [List.map_id, List.map_id, List.map_id] at hsplit
  have hksize := congrArg List.length hkeys
  have hcsize := congrArg List.length hchildren
  rw [List.length_append, List.length_cons] at hksize
  rw [List.length_append, h] at hcsize
  refine ⟨median, ⟨ks, cs⟩, ⟨ks', cs'⟩, hsplit, ?_, hlen, ?_, ?_, ?_⟩
  · rw [Inner.joined, ← hkeys, ← hchildren]
  · show cs'.length = ks'.length + 1
    omega
  · show ks'.length ≤ ks.length
    omega
  · show ks.length ≤ ks'.length + 1
    omega

theorem exists_mergesTo (hleft : left.Proper) (hright : right.Proper) (separator : K) (pageSize : Nat) :
    ∃ merged, left.merge? separator right pageSize = some merged ∧ left.MergesTo separator right pageSize merged := by
  rcases merge?_cases id hleft hright separator pageSize with
    ⟨hfits, hmerge⟩ | ⟨hlong, ls, median, us, xs, ys, hkeys, hchildren, hxs, hys, hhalf, hsum, hmerge⟩
  · rw [List.map_id, List.map_id, List.map_id] at hmerge
    exact ⟨_, hmerge, .absorbed hfits (hleft.joined hright separator)⟩
  · rw [List.map_id, List.map_id, List.map_id, List.map_id] at hmerge
    refine ⟨_, hmerge, .rebalanced hlong ⟨?_, hxs, hys, ?_, ?_⟩⟩
    · rw [joined, joined, hkeys, hchildren]
    · show us.length ≤ ls.length
      omega
    · show ls.length ≤ us.length + 1
      omega

/-- The two parts of a page make up the page again. -/
theorem Cut.merge? (h : whole.Cut median lower upper) (hfits : whole.size ≤ pageSize) :
    lower.merge? median upper pageSize = some (.absorbed, whole, ⟨[], []⟩) := by
  rw [h.eq_joined] at hfits ⊢
  exact if_pos hfits

/-- The pages that remain are filled if what the two had fills one page and no more than two. -/
theorem MergesTo.filled (h : left.MergesTo separator right pageSize merged)
    (hlo : pageSize / 2 ≤ left.size + 1 + right.size) (hleft : left.size ≤ pageSize) (hright : right.size ≤ pageSize) :
    ∀ page ∈ Merged.remaining merged, pageSize / 2 ≤ page.size ∧ page.size ≤ pageSize := by
  have hsize := size_joined left separator right
  cases h with
  | absorbed hfits =>
    rw [Merged.remaining, List.forall_mem_singleton]
    omega
  | @rebalanced median lower upper hlong hcut =>
    have hsum : left.size + 1 + right.size = lower.size + 1 + upper.size := by
      rw [← hsize, hcut.eq_joined, size_joined]
    have hle := hcut.size_le
    have hge := hcut.le_size
    rw [Merged.remaining, List.forall_mem_cons, List.forall_mem_singleton]
    omega

end Inner

/-- Whatever leaves are merged, and whatever inner pages of the proper shape are merged or cut, and however many slots
a page has: there is an outcome, nothing is lost or out of order, and the pages that remain are filled if what there
was fills one page and no more than two. What was cut can be merged again to what it was. -/
theorem merge_and_split (pageSize : Nat) :
    (∀ left right : Leaf K I, left.MergesTo right pageSize (left.merge right pageSize)
      ∧ (pageSize / 2 ≤ left.size + right.size → left.size ≤ pageSize → right.size ≤ pageSize →
        ∀ page ∈ Merged.remaining (left.merge right pageSize), pageSize / 2 ≤ page.size ∧ page.size ≤ pageSize))
    ∧ (∀ (left right : Inner K) (separator : K), left.Proper → right.Proper →
      ∃ merged, left.merge? separator right pageSize = some merged
        ∧ left.MergesTo separator right pageSize merged
        ∧ (pageSize / 2 ≤ left.size + 1 + right.size → left.size ≤ pageSize → right.size ≤ pageSize →
          ∀ page ∈ Merged.remaining merged, pageSize / 2 ≤ page.size ∧ page.size ≤ pageSize))
    ∧ ∀ whole : Inner K, whole.Proper → 1 ≤ whole.size →
      ∃ median lower upper, whole.split? = some (median, lower, upper) ∧ whole.Cut median lower upper
        ∧ (whole.size ≤ pageSize → lower.merge? median upper pageSize = some (.absorbed, whole, ⟨[], []⟩)) := by
  refine ⟨fun left right => ?_, fun left right separator hleft hright => ?_, fun whole hproper hne => ?_⟩
  · have h := Leaf.mergesTo_merge left right pageSize
    exact ⟨h, h.filled⟩
  · obtain ⟨merged, hmerge, h⟩ := Inner.exists_mergesTo hleft hright separator pageSize
    exact ⟨merged, hmerge, h, h.filled⟩
  · obtain ⟨median, lower, upper, hsplit, hcut⟩ := hproper.exists_cut hne
    exact ⟨median, lower, upper, hsplit, hcut, hcut.merge?⟩

/-- A page that lacks a slot shares with a full one, and a page of five separators is cut and merged again. -/
theorem merge_and_split_five :
    (∀ page ∈ Merged.remaining ((⟨[(1, 1)], some ⟨1⟩⟩ : Leaf Nat Nat).merge ⟨[(5, 5), (6, 6), (7, 7), (8, 8)], none⟩ 5),
      2 ≤ page.size ∧ page.size ≤ 5)
    ∧ (⟨[10], [⟨0⟩, ⟨1⟩]⟩ : Inner Nat).Proper ∧ (⟨[30, 40, 50, 60], [⟨2⟩, ⟨3⟩, ⟨4⟩, ⟨5⟩, ⟨6⟩]⟩ : Inner Nat).Proper
    ∧ (∃ merged, (⟨[10], [⟨0⟩, ⟨1⟩]⟩ : Inner Nat).merge? 20 ⟨[30, 40, 50, 60], [⟨2⟩, ⟨3⟩, ⟨4⟩, ⟨5⟩, ⟨6⟩]⟩ 5
        = some merged
      ∧ ∀ page ∈ Merged.remaining merged, 2 ≤ page.size ∧ page.size ≤ 5)
    ∧ (⟨[10, 20, 30, 40, 50], [⟨0⟩, ⟨1⟩, ⟨2⟩, ⟨3⟩, ⟨4⟩, ⟨5⟩]⟩ : Inner Nat).Proper
    ∧ ∃ median lower upper, (⟨[10, 20, 30, 40, 50], [⟨0⟩, ⟨1⟩, ⟨2⟩, ⟨3⟩, ⟨4⟩, ⟨5⟩]⟩ : Inner Nat).split?
        = some (median, lower, upper)
      ∧ lower.merge? median upper 5
        = some (.absorbed, ⟨[10, 20, 30, 40, 50], [⟨0⟩, ⟨1⟩, ⟨2⟩, ⟨3⟩, ⟨4⟩, ⟨5⟩]⟩, ⟨[], []⟩) := by
  obtain ⟨hleaves, hinners, hcuts⟩ := merge_and_split (K := Nat) (I := Nat) 5
  obtain ⟨merged, hmerge, -, hfilled⟩ := hinners ⟨[10], [⟨0⟩, ⟨1⟩]⟩
    ⟨[30, 40, 50, 60], [⟨2⟩, ⟨3⟩, ⟨4⟩, ⟨5⟩, ⟨6⟩]⟩ 20 (by decide) (by decide)
  obtain ⟨median, lower, upper, hsplit, -, hback⟩ :=
    hcuts ⟨[10, 20, 30, 40, 50], [⟨0⟩, ⟨1⟩, ⟨2⟩, ⟨3⟩, ⟨4⟩, ⟨5⟩]⟩ (by decide) (by decide)
  exact ⟨(hleaves _ _).2 (by decide) (by decide) (by decide), by decide, by decide,
    ⟨merged, hmerge, hfilled (by decide) (by decide) (by decide)⟩, by decide, median, lower, upper, hsplit,
    hback (by decide)⟩

end PagedIndex
