import FastLlm.Lib.ArgMax
import Mathlib.Data.List.Range
import Mathlib.Data.List.Sort

/-!
# Ranking by repeated maximum

The indices below a bound in descending order of their values, equal values in ascending order of
the indices: a stable sort.  Taking the lowest index of the largest value among the indices that
are left, again and again, goes through the same list.

## Main definitions

* `ranking` — the stable descending sort of the indices.
* `map_eq_ranking_take` — indices selected one after the other are the head of the ranking.
-/

variable {K : Type} [LinearOrder K] (v : ℕ → K) (n : ℕ)

variable {v} in
/-- A strictly increasing function of the values changes no maximum. -/
theorem LowestMax.of_strictMono {L : Type} [LinearOrder L] {f : K → L} (hf : StrictMono f)
    {S : Set ℕ} {j : ℕ} (h : LowestMax (fun i => f (v i)) S j) : LowestMax v S j := by
  refine ⟨h.mem, fun k hk => ?_⟩
  rcases h.2 k hk with hlt | ⟨heq, hle⟩
  · exact .inl (hf.lt_iff_lt.mp hlt)
  · exact .inr ⟨hf.injective heq, hle⟩

/-- The indices below `n`, sorted. -/
def ranking : List ℕ := (List.range n).mergeSort fun i j => decide (v j ≤ v i)

theorem ranking_perm : (ranking v n).Perm (List.range n) := List.mergeSort_perm _ _

theorem length_ranking : (ranking v n).length = n := by
  rw [(ranking_perm v n).length_eq, List.length_range]

theorem nodup_ranking : (ranking v n).Nodup := (ranking_perm v n).nodup_iff.mpr List.nodup_range

theorem mem_ranking {i : ℕ} : i ∈ ranking v n ↔ i < n := by
  rw [(ranking_perm v n).mem_iff, List.mem_range]

omit [LinearOrder K] in
/-- Two elements of a list without repetitions stand in one order only. -/
theorem not_sublist_swap {L : List ℕ} (hnd : L.Nodup) {i j : ℕ} (hij : [i, j].Sublist L) :
    ¬ [j, i].Sublist L := by
  induction L with
  | nil => cases hij
  | cons a L ih =>
    obtain ⟨ha, hnd⟩ := List.nodup_cons.mp hnd
    intro hji
    cases hij with
    | cons _ hij =>
      cases hji with
      | cons _ hji => exact ih hnd hij hji
      | cons_cons _ hji => exact ha (hij.subset (by simp))
    | cons_cons _ hj =>
      cases hji with
      | cons _ hji => exact ha (hji.subset (by simp))
      | cons_cons _ hi => exact ha (hi.subset (by simp))

/-- Smaller indices come first in the range. -/
theorem pair_sublist_range {i j : ℕ} (hij : i < j) (hj : j < n) :
    [i, j].Sublist (List.range n) := by
  have hpair : [i, j].Sublist (List.range (j + 1)) := by
    rw [List.range_succ]
    exact (List.singleton_sublist.mpr (List.mem_range.mpr hij)).append (List.Sublist.refl [j])
  exact hpair.trans (List.range_sublist.mpr hj)

/-- An index comes before those of smaller values, and of those with the same value before the
larger ones. -/
theorem ranking_pairwise : (ranking v n).Pairwise fun i j => v j < v i ∨ v j = v i ∧ i < j := by
  have htrans : ∀ a b c : ℕ, decide (v b ≤ v a) = true → decide (v c ≤ v b) = true →
      decide (v c ≤ v a) = true := fun a b c hab hbc =>
    decide_eq_true ((of_decide_eq_true hbc).trans (of_decide_eq_true hab))
  have htotal : ∀ a b : ℕ, (decide (v b ≤ v a) || decide (v a ≤ v b)) = true := by
    intro a b
    simp [le_total]
  have hsorted := List.pairwise_mergeSort htrans htotal (List.range n)
  rw [List.pairwise_iff_forall_sublist] at hsorted ⊢
  intro i j hij
  have hle : v j ≤ v i := of_decide_eq_true (hsorted hij)
  rcases hle.lt_or_eq with hlt | heq
  · exact .inl hlt
  · refine .inr ⟨heq, ?_⟩
    have hne : i ≠ j := by simpa using hij.nodup (nodup_ranking v n)
    have hi : i < n := (mem_ranking v n).mp (hij.subset (by simp))
    by_contra hnot
    -- the sort keeps `j` before `i`
    have hji := List.pair_sublist_mergeSort htrans htotal (decide_eq_true heq.ge)
      (pair_sublist_range n (show j < i by omega) hi)
    exact not_sublist_swap (nodup_ranking v n) hij hji

/-- The next index of the ranking is the lowest one of the largest value among those left. -/
theorem lowestMax_ranking {k : ℕ} (hk : k < n) :
    LowestMax v {i | i < n ∧ i ∉ (ranking v n).take k}
      ((ranking v n).get ⟨k, by rwa [length_ranking]⟩) := by
  rw [List.get_eq_getElem]
  have hlen : k < (ranking v n).length := by rwa [length_ranking]
  have hpair := ranking_pairwise v n
  have hnd := nodup_ranking v n
  have hsplit : (ranking v n).take k ++ (ranking v n)[k] :: (ranking v n).drop (k + 1) =
      ranking v n := by
    rw [← List.drop_eq_getElem_cons hlen, List.take_append_drop]
  rw [← hsplit] at hpair hnd
  obtain ⟨-, hpair, -⟩ := List.pairwise_append.mp hpair
  refine ⟨⟨?_, ?_⟩, fun i hi => ?_⟩
  · exact (mem_ranking v n).mp (List.getElem_mem hlen)
  · intro hin
    exact (List.nodup_append.mp hnd).2.2 _ hin _ List.mem_cons_self rfl
  · have hmem := (mem_ranking v n).mpr hi.1
    rw [← hsplit, List.mem_append, or_iff_right hi.2, List.mem_cons] at hmem
    rcases hmem with rfl | hmem
    · exact .inr ⟨rfl, le_rfl⟩
    · rcases (List.pairwise_cons.mp hpair).1 i hmem with hlt | ⟨heq, hlt⟩
      · exact .inl hlt
      · exact .inr ⟨heq, hlt.le⟩

/-- **Repeated maximum is the ranking.**  Indices of which each is the lowest one of the largest
value among those not selected before it are the first ones of the ranking. -/
theorem map_eq_ranking_take (ids : ℕ → ℕ) (m : ℕ)
    (h : ∀ k < m, LowestMax v {i | i < n ∧ ∀ k2 < k, ids k2 ≠ i} (ids k)) :
    (List.range m).map ids = (ranking v n).take m := by
  induction m with
  | zero => rfl
  | succ m ih =>
    have hprev := ih fun k hk => h k (by omega)
    have hset : {i | i < n ∧ ∀ k2 < m, ids k2 ≠ i} = {i | i < n ∧ i ∉ (ranking v n).take m} := by
      ext i
      rw [Set.mem_ofPred_eq, Set.mem_ofPred_eq, ← hprev]
      simp
    have hlast := h m (Nat.lt_succ_self m)
    rw [hset] at hlast
    -- something is left, so the ranking is longer
    have hm : m < n := by
      by_contra hge
      apply hlast.mem.2
      rw [List.take_of_length_le (by rw [length_ranking]; omega)]
      exact (mem_ranking v n).mpr hlast.mem.1
    have hnext := hlast.unique (lowestMax_ranking v n hm)
    rw [List.range_succ, List.map_append, List.map_singleton, hprev, hnext, List.get_eq_getElem,
      List.take_append_getElem]
