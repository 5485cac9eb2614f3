import PagedIndex.Proofs.Subtree.Order
import PagedIndex.Proofs.Subtree.Spine
import Mathlib.Data.List.TakeWhile

/-!
# Where a key belongs

The way down takes, on every inner page, the child behind the last separator that is not above the key. In
an ascending tree everything left of that way is below the key and everything right of it above
(`Spine.before_key`, `Spine.after_key`), so whatever is to be known or done about the key concerns the
leaf at its end.
-/

namespace PagedIndex

variable {K I : Type} [Ord K]

/-- The child left out is the one to look for `key` in. -/
structure Frame.Routes (key : K) (f : Frame K I) : Prop where
  low : ∀ k ∈ f.lowKeys, (compare k key).isLE
  high : ∀ k ∈ f.highKeys.head?, compare key k = .lt

theorem Inner.seek_position (inner : Inner K) (key : K) : (inner.seek key).position
    = (inner.keys.takeWhile fun k => (compare k key).isLE).length := by
  unfold seek
  generalize (inner.keys.takeWhile fun k => (compare k key).isLE).length = slot
  cases slot with
  | zero => rfl
  | succ before =>
    dsimp only
    split
    · split <;> rfl
    · rfl

variable [Std.TransOrd K] {pageSize d : Nat}

/-! ## The child to go on with -/

/-- An inner page with the child left out that a search for `key` goes on with. -/
theorem Subtree.Regular.exists_frame {r : PageRef} {m : List Int64} {ks : List K}
    {cs : List (Subtree K I)} (h : (Subtree.inner r m ks cs).Regular pageSize (d + 1)) (key : K) :
    ∃ (f : Frame K I) (c : Subtree K I), Subtree.inner r m ks cs = f.plug c ∧ f.Fits pageSize d
      ∧ f.Routes key ∧ f.low.length = ((⟨ks, cs.map ref⟩ : Inner K).seek key).position
      ∧ c.Regular pageSize d ∧ c.Filled pageSize := by
  obtain ⟨hl, hreg, hf⟩ := regular_inner.mp h
  rw [Inner.seek_position]
  have hcut := (List.takeWhile_append_dropWhile (p := fun k => (compare k key).isLE) (l := ks)).symm
  have hlow : ∀ k ∈ ks.takeWhile (fun k => (compare k key).isLE), (compare k key).isLE :=
    fun k hk => List.mem_takeWhile_imp (p := fun k => (compare k key).isLE) hk
  have hhigh : ∀ k ∈ (ks.dropWhile fun k => (compare k key).isLE).head?, compare key k = .lt := by
    intro k hk
    have := List.head?_dropWhile_not (fun k => (compare k key).isLE) ks
    rw [Option.mem_def.mp hk] at this
    rw [← Std.OrientedCmp.gt_iff_lt, ← Ordering.isLE_eq_false]
    exact this
  generalize ks.takeWhile (fun k => (compare k key).isLE) = lowKeys at hcut hlow ⊢
  generalize ks.dropWhile (fun k => (compare k key).isLE) = highKeys at hcut hhigh
  subst hcut
  rw [List.length_append] at hl
  have hi : lowKeys.length < cs.length := by omega
  have hcs : cs.take lowKeys.length ++ cs[lowKeys.length] :: cs.drop (lowKeys.length + 1) = cs := by
    rw [List.getElem_cons_drop hi, List.take_append_drop]
  have hside : ∀ c ∈ cs.take lowKeys.length ++ cs.drop (lowKeys.length + 1), c ∈ cs := by
    intro c hc
    rcases List.mem_append.mp hc with hc | hc
    · exact List.mem_of_mem_take hc
    · exact List.mem_of_mem_drop hc
  refine ⟨⟨r, m, lowKeys, highKeys, cs.take lowKeys.length, cs.drop (lowKeys.length + 1)⟩,
    cs[lowKeys.length], ?_, ⟨?_, ?_, ?_, ?_⟩, ⟨hlow, hhigh⟩, ?_, ?_, ?_⟩
  · rw [Frame.plug_eq, hcs]
  · show lowKeys.length = (cs.take lowKeys.length).length
    rw [List.length_take]; omega
  · show highKeys.length = (cs.drop (lowKeys.length + 1)).length
    rw [List.length_drop]; omega
  · exact fun c hc => hreg c (hside c hc)
  · exact fun c hc => hf c (hside c hc)
  · rw [List.length_take]; omega
  · exact hreg _ (List.getElem_mem hi)
  · exact hf _ (List.getElem_mem hi)

/-! ## What lies beside the way -/

/-- Before the child to go on with, nothing is above the key, and no entry has the key. -/
theorem Frame.before_key {f : Frame K I} (hf : f.Fits pageSize d) {key : K} (hr : f.Routes key)
    (ha : Ascending f.before) {s t : Stop K I} (hs : s ∈ f.before) (ht : t.key = key) : s.Before t := by
  rcases List.eq_nil_or_concat' f.lowKeys with hk | ⟨ks, k, hk⟩
  · have : f.low = [] := List.length_eq_zero_iff.mp (by rw [← hf.low, hk]; rfl)
    rw [before, this, hk] at hs
    exact absurd hs List.not_mem_nil
  · obtain ⟨cs, c, hc⟩ : ∃ cs c, f.low = cs ++ [c] := by
      refine (List.eq_nil_or_concat' f.low).resolve_left fun h => ?_
      have := hf.low
      rw [h, hk] at this
      exact absurd this (by simp)
    have hlen : ks.length = (cs.map Subtree.walk).length := by
      have := hf.low
      rw [hk, hc, List.length_append, List.length_append] at this
      simpa using this
    -- the last thing met before the child is the separator in front of it
    have hw : f.before = (weave ks (cs.map Subtree.walk) ++ c.walk) ++ [.separator k] := by
      rw [before, hk, hc, List.map_append, weave_append hlen, List.append_assoc]
      rfl
    have hkey : (Stop.separator k : Stop K I).Before t := by
      show (compare k t.key).isLE
      rw [ht]
      exact hr.low k (by rw [hk]; exact List.mem_append_right _ List.mem_cons_self)
    rw [hw] at hs ha
    rcases List.mem_append.mp hs with hs | hs
    · exact Stop.Before.trans ((List.pairwise_append.mp ha).2.2 s hs _ List.mem_cons_self) hkey
    · rw [List.mem_singleton.mp hs]
      exact hkey

/-- Behind the child to go on with, everything is above the key. -/
theorem Frame.after_key {f : Frame K I} (hf : f.Fits pageSize d) {key : K} (hr : f.Routes key)
    (ha : Ascending f.after) {s : Stop K I} (hs : s ∈ f.after) : compare key s.key = .lt := by
  unfold after at hs ha
  cases hk : f.highKeys with
  | nil =>
    have : f.high = [] := List.length_eq_zero_iff.mp (by rw [← hf.high, hk]; rfl)
    rw [this, hk] at hs
    exact absurd hs List.not_mem_nil
  | cons k ks =>
    have hlt : compare key k = .lt := hr.high k (by rw [hk]; rfl)
    rw [hk, trail] at hs ha
    rcases List.mem_cons.mp hs with rfl | hs
    · exact hlt
    · exact Std.TransCmp.lt_of_lt_of_isLE hlt ((List.pairwise_cons.mp ha).1 s hs).isLE

namespace Spine

variable {fs : List (Frame K I)} {key : K}

theorem before_key (h : Fits pageSize d fs) (hr : ∀ f ∈ fs, f.Routes key) (ha : Ascending (before fs))
    {s t : Stop K I} (hs : s ∈ before fs) (ht : t.key = key) : s.Before t := by
  induction fs generalizing d with
  | nil => exact absurd hs List.not_mem_nil
  | cons f fs ih =>
    obtain ⟨ha1, ha2, _⟩ := List.pairwise_append.mp ha
    rcases List.mem_append.mp hs with hs | hs
    · exact ih h.2.2.2 (fun g hg => hr g (List.mem_cons_of_mem f hg)) ha1 hs
    · exact Frame.before_key h.1 (hr f List.mem_cons_self) ha2 hs ht

theorem after_key (h : Fits pageSize d fs) (hr : ∀ f ∈ fs, f.Routes key) (ha : Ascending (after fs))
    {s : Stop K I} (hs : s ∈ after fs) : compare key s.key = .lt := by
  induction fs generalizing d with
  | nil => exact absurd hs List.not_mem_nil
  | cons f fs ih =>
    obtain ⟨ha1, ha2, _⟩ := List.pairwise_append.mp ha
    rcases List.mem_append.mp hs with hs | hs
    · exact Frame.after_key h.1 (hr f List.mem_cons_self) ha1 hs
    · exact ih h.2.2.2 (fun g hg => hr g (List.mem_cons_of_mem f hg)) ha2 hs

end Spine

end PagedIndex
