import FastLlm.Model.HeadCert

/-!
# The number of segments

`HeadCert::init` starts from an eighth of the row, rounded down to whole blocks, and widens the
segments until they divide the row; `argmax` keeps one norm per segment in an array of eight.
Rounding down can leave a width that divides the row more than eight times: a row of nine blocks
gets nine segments.

## Main definitions

* `segWidth_of_dvd`, `le_segWidth` — the width found, by the width the loop starts from.
* `HeadCert.init_segments_iff` — when the segments fit the array.
-/

namespace FastLlm

/-! ## The loop -/

theorem growWidth_of_dvd {be NE segw : ℕ} (h : segw ∣ NE) (n : ℕ) :
    growWidth be NE n segw = segw := by
  cases n with
  | zero => rfl
  | succ n => rw [growWidth, if_neg (not_not.mpr (Nat.mod_eq_zero_of_dvd h))]

theorem le_growWidth (be NE n segw : ℕ) : segw ≤ growWidth be NE n segw := by
  induction n generalizing segw with
  | zero => exact le_rfl
  | succ n ih =>
    rw [growWidth]
    split_ifs
    · exact (Nat.le_add_right _ _).trans (ih _)
    · exact le_rfl

/-- A width that does not divide the row is left behind. -/
theorem add_le_growWidth {be NE segw : ℕ} (h : ¬ segw ∣ NE) {n : ℕ} (hn : 0 < n) :
    segw + be ≤ growWidth be NE n segw := by
  obtain ⟨n, rfl⟩ := Nat.exists_eq_succ_of_ne_zero hn.ne'
  rw [growWidth, if_pos fun hmod => h (Nat.dvd_of_mod_eq_zero hmod)]
  exact le_growWidth ..

/-- A loop that has found a divisor has stopped. -/
theorem growWidth_stop {be NE : ℕ} {n : ℕ} {segw : ℕ} (h : growWidth be NE n segw ∣ NE) {k : ℕ}
    (hk : n ≤ k) : growWidth be NE k segw = growWidth be NE n segw := by
  induction n generalizing segw k with
  | zero => exact growWidth_of_dvd h k
  | succ n ih =>
    obtain ⟨k, rfl⟩ := Nat.exists_eq_succ_of_ne_zero (Nat.ne_of_gt (Nat.lt_of_lt_of_le n.succ_pos hk))
    rw [growWidth] at h ⊢
    rw [growWidth]
    split_ifs at h ⊢
    · exact ih h (Nat.le_of_succ_le_succ hk)
    · rfl

/-! ## Widths in blocks -/

/-- The width the loop starts from. -/
def segStart (be NE : ℕ) : ℕ :=
  let segw := NE / SEGS
  let segw := if segw < be then be else segw
  segw / be * be

theorem segWidth_eq (be NE : ℕ) : segWidth be NE = growWidth be NE NE (segStart be NE) := rfl

/-- The same in blocks. -/
def startBlocks (q : ℕ) : ℕ := if q < SEGS then 1 else q / SEGS

theorem segStart_eq {be q : ℕ} (hbe : 0 < be) : segStart be (be * q) = be * startBlocks q := by
  rw [segStart, startBlocks]
  have hlt : be * q / SEGS < be ↔ q < SEGS := by
    rw [Nat.div_lt_iff_lt_mul (by decide), Nat.mul_lt_mul_left hbe]
  by_cases hq : q < SEGS
  · rw [if_pos (hlt.mpr hq), if_pos hq, Nat.div_self hbe, Nat.one_mul, Nat.mul_one]
  · rw [if_neg fun h => hq (hlt.mp h), if_neg hq, Nat.div_div_eq_div_mul, Nat.mul_comm SEGS be,
      ← Nat.div_div_eq_div_mul, Nat.mul_div_cancel_left q hbe, Nat.mul_comm (q / SEGS)]

section
variable {be q : ℕ} (hbe : 0 < be)
include hbe

/-- The start divides the row: it is the width. -/
theorem segWidth_of_dvd (h : startBlocks q ∣ q) :
    be * q / segWidth be (be * q) = q / startBlocks q := by
  rw [segWidth_eq, segStart_eq hbe, growWidth_of_dvd (Nat.mul_dvd_mul_left be h),
    Nat.mul_div_mul_left _ _ hbe]

/-- It does not: the width is a block more. -/
theorem le_segWidth (h : ¬ startBlocks q ∣ q) (hq : 0 < q) :
    be * (startBlocks q + 1) ≤ segWidth be (be * q) := by
  rw [segWidth_eq, segStart_eq hbe, Nat.mul_succ]
  apply add_le_growWidth _ (Nat.mul_pos hbe hq)
  intro hdvd
  exact h (Nat.dvd_of_mul_dvd_mul_left hbe hdvd)

/-- The segments of a row of `q` blocks are at most eight, unless an eighth of the row, rounded
down, divides it without being an eighth. -/
theorem nseg_le_iff (hq : 0 < q) :
    be * q / segWidth be (be * q) ≤ SEGS ↔ q ≤ SEGS ∨ SEGS ∣ q ∨ ¬ q / SEGS ∣ q := by
  by_cases hdvd : startBlocks q ∣ q
  · rw [segWidth_of_dvd hbe hdvd]
    rw [startBlocks] at *
    split_ifs at hdvd ⊢ with hlt
    · rw [Nat.div_one]
      exact ⟨.inl, fun _ => hlt.le⟩
    · -- the row is `k` eighths, rounded down, and `k` is at least eight
      rw [not_lt] at hlt
      obtain ⟨k, hk⟩ := hdvd
      have hpos : 0 < q / SEGS := Nat.div_pos hlt (by decide)
      have hq8 : SEGS * (q / SEGS) ≤ q := Nat.mul_div_le q SEGS
      have hdiv : q / (q / SEGS) = k := Nat.div_eq_of_eq_mul_right hpos hk
      have hk8 : SEGS ≤ k := by
        rw [← hdiv, Nat.le_div_iff_mul_le hpos]
        exact hq8
      rw [hdiv]
      constructor
      · intro hle
        have heq : k = SEGS := le_antisymm hle hk8
        exact .inr (.inl ⟨q / SEGS, hk.trans (by rw [heq, Nat.mul_comm])⟩)
      · have hof (h : SEGS ∣ q) : k ≤ SEGS := by
          rw [← hdiv]
          exact Nat.div_le_of_le_mul (by rw [Nat.div_mul_cancel h])
        intro h
        rcases h with h | h | h
        · exact hof (by rw [le_antisymm h hlt])
        · exact hof h
        · exact absurd ⟨k, hk⟩ h
  · -- a block more than an eighth, rounded down, is more than an eighth
    have hge : SEGS ≤ q := by
      by_contra hlt
      rw [startBlocks, if_pos (not_le.mp hlt)] at hdvd
      exact hdvd (one_dvd q)
    have hle := le_segWidth hbe hdvd hq
    rw [startBlocks, if_neg (not_lt.mpr hge)] at hdvd hle
    have hlt : q < SEGS * (q / SEGS + 1) := Nat.lt_mul_div_succ q (by decide)
    have hbound : be * q ≤ segWidth be (be * q) * SEGS := by
      calc be * q ≤ be * (SEGS * (q / SEGS + 1)) := Nat.mul_le_mul_left be hlt.le
        _ = be * (q / SEGS + 1) * SEGS := by ring
        _ ≤ segWidth be (be * q) * SEGS := Nat.mul_le_mul_right SEGS hle
    exact ⟨fun _ => .inr (.inr hdvd), fun _ => Nat.div_le_of_le_mul hbound⟩

end

/-! ## The certificate -/

section
variable {K : Type} [Field K] [LinearOrder K] (sqrt roundUp : K → K) (bits : UInt32 → K)
  (m : TileMem K) (M : HeadMat) (margin : K) (topk : ℕ)

/-- The loop of `HeadCert::init` ends with segments of whole blocks that partition the row; and
they fit the array of `argmax` exactly when an eighth of the blocks of the row, rounded down, is
an eighth or does not divide them. -/
theorem HeadCert.init_segments_iff (hNE : 1 ≤ M.NE) (hblk : blkElems M.fmt ∣ M.NE) :
    ((∀ n ≥ M.NE, growWidth (blkElems M.fmt) M.NE n (segStart (blkElems M.fmt) M.NE) =
        (init sqrt roundUp bits m M hblk margin topk).segw) ∧
      blkElems M.fmt ∣ (init sqrt roundUp bits m M hblk margin topk).segw ∧
      (init sqrt roundUp bits m M hblk margin topk).segw ∣ M.NE ∧
      (∀ e < M.NE, ∃! s, s < (init sqrt roundUp bits m M hblk margin topk).nseg ∧
        e / (init sqrt roundUp bits m M hblk margin topk).segw = s) ∧
      ∀ s < (init sqrt roundUp bits m M hblk margin topk).nseg, s < SEGS) ↔
    M.NE / blkElems M.fmt ≤ SEGS ∨ SEGS ∣ M.NE / blkElems M.fmt ∨
      ¬ M.NE / blkElems M.fmt / SEGS ∣ M.NE / blkElems M.fmt := by
  have hbe := blkElems_pos M.fmt
  have hmul : blkElems M.fmt * (M.NE / blkElems M.fmt) = M.NE := Nat.mul_div_cancel' hblk
  have hq : 0 < M.NE / blkElems M.fmt := Nat.div_pos (Nat.le_of_dvd hNE hblk) hbe
  obtain ⟨hdvd, hblocks⟩ := segWidth_dvd hbe hblk
  have hnseg := nseg_le_iff hbe hq
  rw [hmul] at hnseg
  have hpos : 0 < segWidth (blkElems M.fmt) M.NE := Nat.pos_of_dvd_of_pos hdvd hNE
  rw [← hnseg]
  constructor
  · intro ⟨_, _, _, _, hlt⟩
    by_contra hgt
    exact absurd (hlt SEGS (not_le.mp hgt)) (lt_irrefl _)
  · intro hle
    refine ⟨fun n hn => ?_, hblocks, hdvd, fun e he => ?_, fun s hs => lt_of_lt_of_le hs hle⟩
    · exact growWidth_stop hdvd hn
    · refine ⟨e / segWidth (blkElems M.fmt) M.NE, ⟨?_, rfl⟩, fun s hs => hs.2.symm⟩
      exact Nat.div_lt_div_of_lt_of_dvd hdvd he

end

/-- Memory with a weight everywhere. -/
private def ones : TileMem ℚ where
  byte _ := 1
  f32 _ := 1
  q81 _ := ⟨1, 1, fun _ => 1⟩
  q8K _ := ⟨1, fun _ => 1, fun _ => 1⟩
  id _ := 0

/-- Rows of sixteen blocks: eight segments of two. -/
theorem HeadCert.init_segments_iff_sixteen :
    ((∀ n ≥ 512, growWidth 32 512 n (segStart 32 512) =
        (init id id (fun _ => 0) ones ⟨.Q8_0, ⟨0, 0⟩, 544, 1, 512⟩ (by decide) 0 64).segw) ∧
      32 ∣ (init id id (fun _ => 0) ones ⟨.Q8_0, ⟨0, 0⟩, 544, 1, 512⟩ (by decide) 0 64).segw ∧
      (init id id (fun _ => 0) ones ⟨.Q8_0, ⟨0, 0⟩, 544, 1, 512⟩ (by decide) 0 64).segw ∣ 512 ∧
      (∀ e < 512, ∃! s,
        s < (init id id (fun _ => 0) ones ⟨.Q8_0, ⟨0, 0⟩, 544, 1, 512⟩ (by decide) 0 64).nseg ∧
        e / (init id id (fun _ => 0) ones ⟨.Q8_0, ⟨0, 0⟩, 544, 1, 512⟩ (by decide) 0 64).segw =
          s) ∧
      ∀ s < (init id id (fun _ => 0) ones ⟨.Q8_0, ⟨0, 0⟩, 544, 1, 512⟩ (by decide) 0 64).nseg,
        s < SEGS) ↔
    512 / 32 ≤ SEGS ∨ SEGS ∣ 512 / 32 ∨ ¬ 512 / 32 / SEGS ∣ 512 / 32 :=
  init_segments_iff id id (fun _ => 0) ones ⟨.Q8_0, ⟨0, 0⟩, 544, 1, 512⟩ 0 64 (by decide)
    (by decide)

/-- A row of nine blocks: the last norm is written behind the array. -/
theorem HeadCert.nseg_nine :
    ¬ ∀ (M : HeadMat) (hblk : blkElems M.fmt ∣ M.NE), 1 ≤ M.NE →
      ∀ s < (init id id (fun _ => 0) ones M hblk 0 64).nseg, s < SEGS := by
  intro h
  exact absurd (h ⟨.Q8_0, ⟨0, 0⟩, 306, 1, 288⟩ (by decide) (by decide) 8 (by decide)) (by decide)

end FastLlm
