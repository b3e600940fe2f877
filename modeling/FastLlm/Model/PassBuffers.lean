import Mathlib
import FastLlm.Model.PassOps

/-!
# The buffers of a pass

A column of a buffer comes as it was in the memory, with room for its appendices behind it; a
column of slots comes zeroed.

## Main definitions

* `blank` — a column as it was handed out.
* `triple_bufAlloc`, `triple_bufAllocCols`, `triple_slotAllocCols` — the allocations of the builder.
-/

namespace FastLlm
open Assn Build
open TaskModel (Triple)

variable {S : Setting} {x : Loc} {n k m : ℕ} {μ : Loc → Word}

/-- A column of `n` floats as it was handed out. -/
def blank (x : Loc) (n : ℕ) (μ : Loc → Word) : Assn Loc Word :=
  idle [] x (x.contents n μ) + owned [] (appendix x n) μ

theorem idle_contents_append : idle [] x (x.contents (n + k) μ) =
    idle [] x (x.contents n μ) + idle [] (x.add n) ((x.add n).contents k μ) := by
  rw [Loc.contents_add, idle_append, Loc.length_contents]

theorem idle_contents : idle [] x (x.contents n μ) = owned [] (x.span n) μ := by
  rw [idle, Loc.length_contents]
  exact owned_congr fun l hl => Loc.fill_contents hl

theorem idle_contents_le (h : n ≤ k) :
    idle [] x (x.contents k μ) ≤ idle [] x (x.contents n μ) := by
  rw [idle_contents, idle_contents]
  exact owned_mono (Loc.span_mono h)

theorem le_xAllocBytes : 4 * n ≤ xAllocBytes n ∧ xAllocBytes n ≤ 8 * n + 64 ∧ 4 ∣ xAllocBytes n := by
  simp only [xAllocBytes, xqBytes, align16]
  omega

theorem appendix_subset (h : xAllocBytes n ≤ 4 * (n + k)) : appendix x n ⊆ (x.add n).span k := by
  obtain ⟨h1, h2, h3⟩ := appendix_layout n
  rintro l (⟨hobj, hlo, hhi⟩ | ⟨hobj, hlo, hhi⟩) <;> rw [Loc.mem_span, Loc.obj_add, Loc.off_add]
  · rw [xqBytes] at hhi
    exact ⟨hobj, by omega, by omega⟩
  · exact ⟨hobj, by omega, by omega⟩

theorem idle_contents_le_blank (h : xAllocBytes n ≤ 4 * k) :
    idle [] x (x.contents k μ) ≤ blank x n μ := by
  have hle := (le_xAllocBytes (n := n)).1
  obtain ⟨d, rfl⟩ : ∃ d, k = n + d := ⟨k - n, by omega⟩
  rw [idle_contents_append, blank, idle_contents (x := x.add n)]
  exact add_le_add_right (owned_mono (appendix_subset h)) _

/-- `fl_arena_alloc` of one column. -/
theorem triple_bufAlloc (hL : S.Laid) {n : UInt32} (hn : n.toNat < 2 ^ 27) :
    S.model.Triple 0 (bufAlloc n) fun x => blank x n.toNat S.μ := by
  obtain ⟨-, hle, hdvd⟩ := le_xAllocBytes (n := n.toNat)
  refine (triple_alloc hL _ _).post fun x => idle_contents_le_blank ?_
  rw [UInt64.toNat_ofNat_of_lt' (by rw [UInt64.size]; omega)]
  omega

/-- Columns of floats with their appendices. -/
theorem triple_bufAllocCols (hL : S.Laid) {n : UInt32} (hn : n.toNat < 2 ^ 27) (hm : m ≤ 16) :
    S.model.Triple 0 (bufAllocCols n m) fun c =>
      ∑ p ∈ Finset.range m, blank (c.col p) n.toNat S.μ := by
  obtain ⟨-, hle, -⟩ := le_xAllocBytes (n := n.toNat)
  obtain ⟨hper, hdvd⟩ := le_align128 (xAllocBytes n.toNat)
  have hlt : align128 (xAllocBytes n.toNat) < 2 ^ 31 := by
    rw [align128]
    omega
  have hwords : align128 (xAllocBytes n.toNat) * m / 4 =
      m * (align128 (xAllocBytes n.toNat) / 4) := by
    obtain ⟨d, hd⟩ := hdvd
    rw [hd, show 128 * d * m = 4 * (m * (32 * d)) by ring, show 128 * d = 4 * (32 * d) by ring,
      Nat.mul_div_cancel_left _ (by decide), Nat.mul_div_cancel_left _ (by decide)]
  have hbytes : align128 (xAllocBytes n.toNat) * m < 2 ^ 64 :=
    (Nat.mul_le_mul hlt.le hm).trans_lt (by decide)
  rw [bufAllocCols]
  refine (triple_alloc hL _ _).bind fun x => .pure ?_
  rw [UInt64.toNat_ofNat_of_lt' hbytes, hwords, contents_rows,
    idle_flatMap fun _ _ => Loc.length_contents]
  refine Finset.sum_le_sum fun p _ => ?_
  rw [Cols.col, UInt32.toNat_ofNat_of_lt' (by rw [UInt32.size]; omega)]
  exact idle_contents_le_blank (by omega)

/-- Zeroed columns. -/
theorem triple_slotAllocCols (hL : S.Laid) {n : UInt32} (hn : n.toNat < 2 ^ 27) (hm : m ≤ 16) :
    S.model.Triple 0 (slotAllocCols n m) fun c =>
      ∑ p ∈ Finset.range m, idle [] (c.col p) (List.replicate n.toNat 0) := by
  obtain ⟨hper, hdvd⟩ := le_align128 (n.toNat * 4)
  have hlt : align128 (n.toNat * 4) / 4 ≤ 2 ^ 27 + 32 := by
    rw [align128]
    omega
  have hstride : (UInt32.ofNat (align128 (n.toNat * 4) / 4)).toNat = align128 (n.toNat * 4) / 4 :=
    UInt32.toNat_ofNat_of_lt' (by rw [UInt32.size]; omega)
  have hwords : (UInt32.ofNat (align128 (n.toNat * 4) / 4) * .ofNat m).toNat =
      m * (align128 (n.toNat * 4) / 4) := by
    have hmul : align128 (n.toNat * 4) / 4 * m < 2 ^ 32 :=
      (Nat.mul_le_mul hlt hm).trans_lt (by decide)
    rw [UInt32.toNat_mul, hstride, UInt32.toNat_ofNat_of_lt' (by rw [UInt32.size]; omega),
      Nat.mod_eq_of_lt hmul, Nat.mul_comm]
  have hzeros (k : ℕ) : List.replicate (m * k) (0 : Word) =
      (List.range m).flatMap fun _ => List.replicate k 0 := by
    simp [List.flatMap_def]
  rw [slotAllocCols]
  refine (triple_slotAlloc hL _).bind fun x => .pure ?_
  rw [hwords, hzeros, idle_flatMap fun _ _ => List.length_replicate]
  refine Finset.sum_le_sum fun p _ => ?_
  rw [Cols.col, hstride]
  obtain ⟨d, hd⟩ : ∃ d, align128 (n.toNat * 4) / 4 = n.toNat + d :=
    ⟨align128 (n.toNat * 4) / 4 - n.toNat, by omega⟩
  rw [hd, List.replicate_add, idle_append]
  exact add_le_left _ _

end FastLlm
