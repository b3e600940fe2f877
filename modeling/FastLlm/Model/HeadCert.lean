import FastLlm.Lib.ArgMax
import FastLlm.Runtime.CpuExact
import Mathlib.Analysis.Real.Sqrt

/-!
# The certified argmax of the head

`head_cert.h`: the index of the largest logit, from the logits of few rows.  The rows with the
largest norms and the row of a hint are evaluated first; of the others only those whose bound, the
norms of the segments of the row times the norms of the segments of the activation, does not stay
below the best value so far by more than a margin.

The result is the lowest index of the largest logit whenever no logit exceeds its bound by more
than the margin, up to the comparison `(int32_t)j == hint`: with a hint below `-1` it passes over
the row that wraps around to the hint, without evaluating it (`HeadCert.argmax_eq_iff`).

## Main definitions

* `HeadMat`, `HeadMat.dotExact` — the matrix, and the logit of a row.
* `segWidth` — the width of a segment.
* `HeadCert`, `HeadCert.init` — the certificate.
* `certSearch`, `HeadCert.argmax` — the search.
-/

namespace FastLlm

inductive HeadDotMode
  | I8K | FAST_DEQ | CANON
  deriving DecidableEq, Repr

/-- The matrix of the head: `f_`, `w_`, `rb_`, `V_` and `NE_`. -/
structure HeadMat where
  fmt : Fmt
  w : BytePtr
  rb : ℕ
  V : UInt32
  NE : ℕ

namespace HeadMat
variable {F : Type} (A : Arith F) (m : TileMem F) (M : HeadMat)

/-- `w_ + j * rb_`. -/
def row (j : ℕ) : ℕ → UInt8 := m.row (M.w.add (j * M.rb))

/-- Element `e` of row `j`. -/
def elem (j e : ℕ) : F := value A M.fmt (M.row m j) e

/-- `dot_exact`, for the activation at `h`. -/
def dotExact (j : ℕ) (h : Loc) (mode : HeadDotMode) : F :=
  let row := M.row m j
  let x := m.col h
  match mode with
  | .I8K => dotI8kAny A M.fmt row (m.xqk h M.NE) M.NE
  | .FAST_DEQ =>
    match M.fmt with
    | .F32 => dotRowFast A (fun e => A.ofBits (le32 row (4 * e))) x M.NE
    | .Q8_0 => dotRowFastQ80 A row x M.NE
    | _ => dotRowFastDequant A M.fmt row x M.NE
  | .CANON =>
    match M.fmt with
    | .Q6_K => dotRowQ6K A row x M.NE
    | .Q4_K => dotRowQ4K A row x M.NE
    | .Q8_0 => dotRowQ80 A row x M.NE
    | .F32 => dotRowFast A (fun e => A.ofBits (le32 row (4 * e))) x M.NE
    | _ => dotRowFastDequant A M.fmt row x M.NE

/-- `seg_values`, into a buffer. -/
def segValues (row : ℕ → UInt8) (elem0 n : ℕ) : ℕ → F :=
  match M.fmt with
  | .F32 => fun i => A.ofBits (le32 row (4 * (elem0 + i)))
  | .Q8_0 => fun i =>
    let b := off row ((elem0 + i) / 32 * 34)
    A.mul (A.ofHalf (le16 b 0)) (A.ofInt (i8 (b (2 + (elem0 + i) % 32))))
  | _ => dequantChunk A M.fmt row elem0 n fun _ => A.zero

end HeadMat

/-! ## Segments -/

def SEGS : ℕ := 8

/-- `while (NE % segw_) segw_ += be;`, for a number of rounds. -/
def growWidth (be NE : ℕ) : ℕ → ℕ → ℕ
  | 0, segw => segw
  | n + 1, segw => if NE % segw ≠ 0 then growWidth be NE n (segw + be) else segw

/-- `segw_`.  The loop ends before the width exceeds the length of a row of whole blocks. -/
def segWidth (be NE : ℕ) : ℕ :=
  let segw := NE / SEGS
  let segw := if segw < be then be else segw
  let segw := segw / be * be
  growWidth be NE NE segw

theorem growWidth_dvd {be NE : ℕ} (hbe : 0 < be) (hdvd : be ∣ NE) (n : ℕ) {segw : ℕ}
    (hpos : 0 < segw) (hseg : be ∣ segw) (hn : NE ≤ segw + n * be) (hle : segw ≤ NE ∨ NE = 0) :
    growWidth be NE n segw ∣ NE ∧ be ∣ growWidth be NE n segw := by
  induction n generalizing segw with
  | zero =>
    rw [growWidth]
    rcases hle with hle | h0
    · have heq : segw = NE := by omega
      exact ⟨heq ▸ dvd_rfl, hseg⟩
    · exact ⟨h0 ▸ dvd_zero segw, hseg⟩
  | succ n ih =>
    rw [growWidth]
    by_cases hmod : NE % segw = 0
    · rw [if_neg (not_not.mpr hmod)]
      exact ⟨Nat.dvd_of_mod_eq_zero hmod, hseg⟩
    · rw [if_pos hmod]
      have hlt : segw < NE := by
        rcases hle with hle | h0
        · refine lt_of_le_of_ne hle fun heq => hmod ?_
          rw [heq, Nat.mod_self]
        · simp [h0] at hmod
      -- the next multiple of the block size is still within the row
      obtain ⟨a, rfl⟩ := hseg
      obtain ⟨b, rfl⟩ := hdvd
      have hab : a + 1 ≤ b := Nat.lt_of_mul_lt_mul_left hlt
      have hnext : be * a + be ≤ be * b := by
        rw [← Nat.mul_succ]
        exact Nat.mul_le_mul_left be hab
      refine ih (by omega) ?_ ?_ (.inl hnext)
      · exact Dvd.dvd.add (Dvd.intro a rfl) dvd_rfl
      · rw [Nat.succ_mul] at hn
        omega

/-- The segments divide a row of whole blocks, and are whole blocks themselves. -/
theorem segWidth_dvd {be NE : ℕ} (hbe : 0 < be) (hdvd : be ∣ NE) :
    segWidth be NE ∣ NE ∧ be ∣ segWidth be NE := by
  rw [segWidth]
  set segw := if NE / SEGS < be then be else NE / SEGS with hdef
  have hge : be ≤ segw := by rw [hdef]; split <;> omega
  have hpos : 0 < segw / be * be := Nat.mul_pos (Nat.div_pos hge hbe) hbe
  apply growWidth_dvd hbe hdvd NE hpos (Dvd.intro_left _ rfl)
  · have := Nat.le_mul_of_pos_right NE hbe
    omega
  · by_cases h0 : NE = 0
    · exact .inr h0
    · left
      have hbeNE : be ≤ NE := Nat.le_of_dvd (by omega) hdvd
      have hle : segw ≤ NE := by
        rw [hdef]
        split
        · exact hbeNE
        · exact Nat.div_le_self NE SEGS
      exact (Nat.div_mul_le_self segw be).trans hle

/-! ## The certificate -/

/-- The certificate of a matrix.  `wn j s` is `wn_[j * nseg_ + s]`. -/
structure HeadCert (K : Type) extends HeadMat where
  margin : K
  segw : ℕ
  nseg : ℕ
  wn : ℕ → ℕ → K
  topn : List ℕ
  segs : nseg * segw = NE
  topn_lt : ∀ j ∈ topn, j < V.toNat

section
variable {K : Type} [Field K] [LinearOrder K]

/-- The norms of the segments of an activation: `hn`. -/
def segNorm (sqrt : K → K) (segw : ℕ) (h : ℕ → K) (s : ℕ) : K :=
  sqrt (iter segw 0 fun i acc => acc + off h (s * segw) i * off h (s * segw) i)

/-- `HeadCert::init`.  `roundUp` stores a norm as a float, rounded up; the rows with the largest
norms are found by sorting. -/
def HeadCert.init (sqrt roundUp : K → K) (bits : UInt32 → K) (m : TileMem K) (M : HeadMat)
    (hNE : blkElems M.fmt ∣ M.NE) (margin : K) (topk : ℕ) : HeadCert K where
  toHeadMat := M
  margin := margin
  segw := segWidth (blkElems M.fmt) M.NE
  nseg := M.NE / segWidth (blkElems M.fmt) M.NE
  wn j s :=
    let segw := segWidth (blkElems M.fmt) M.NE
    let buf := M.segValues (.exact bits) (M.row m j) (s * segw) segw
    roundUp (sqrt (iter segw 0 fun i acc => acc + buf i * buf i))
  topn :=
    let segw := segWidth (blkElems M.fmt) M.NE
    let whole (j : ℕ) : K := sqrt (iter (M.NE / segw) 0 fun s tot =>
      let buf := M.segValues (.exact bits) (M.row m j) (s * segw) segw
      tot + iter segw 0 fun i acc => acc + buf i * buf i)
    let all := List.range M.V.toNat
    if topk < M.V.toNat then (all.mergeSort fun a b => whole b ≤ whole a).take topk else all
  segs := Nat.div_mul_cancel (segWidth_dvd (blkElems_pos M.fmt) hNE).1
  topn_lt := by
    intro j hj
    dsimp only at hj
    split_ifs at hj
    · exact List.mem_range.mp (List.mem_mergeSort.mp (List.mem_of_mem_take hj))
    · exact List.mem_range.mp hj

/-- `(int32_t)j`. -/
def int32Of (j : ℕ) : Int32 := (UInt32.ofNat j).toInt32

/-- The search: `v` are the logits, `bound` the bounds of the rows. -/
def certSearch (v bound : ℕ → K) (margin : K) (V : ℕ) (topn : List ℕ) (hint : Int32) : ℕ :=
  -- nothing evaluated: `-INFINITY`, `UINT32_MAX`
  let b : WithBot K × ℕ := (⊥, 2 ^ 32 - 1)
  -- anchors: the hint first, then the fixed set
  let b := if 0 ≤ hint.toInt ∧ hint.toInt.toNat < V then offer v b hint.toInt.toNat else b
  let b := topn.foldl (fun b j => if int32Of j ≠ hint then offer v b j else b) b
  let T : WithBot K := b.1.map (· - margin)
  let b := iter V b fun j b =>
    if int32Of j = hint then b
    else if bound j < T then b
    else if j ∈ topn then b
    else offer v b j
  b.2

namespace HeadCert
variable (hc : HeadCert K) (sqrt : K → K) (bits : UInt32 → K) (m : TileMem K)

/-- The logit of a row, in exact arithmetic. -/
def logit (h : Loc) (mode : HeadDotMode) (j : ℕ) : K := hc.dotExact (.exact bits) m j h mode

/-- The bound of a row: `b`. -/
def bound (h : Loc) (j : ℕ) : K :=
  iter hc.nseg 0 fun s b => b + hc.wn j s * segNorm sqrt hc.segw (m.col h) s

/-- `HeadCert::argmax`.  The norms of the segments are kept in an array of `SEGS` entries, so that
the behaviour is undefined when there are more segments. -/
def argmax (h : Loc) (hint : Int32) (mode : HeadDotMode) : Option ℕ :=
  if hc.nseg ≤ SEGS then
    some (certSearch (hc.logit bits m h mode) (hc.bound sqrt m h) hc.margin hc.V.toNat hc.topn hint)
  else none

end HeadCert

end

/-! ## The search -/

theorem toInt_int32Of (j : ℕ) : (int32Of j).toInt = (j : ℤ).bmod (2 ^ 32) := by
  simp [int32Of]

/-- A row that is not negative as an `int32_t` is itself. -/
theorem int32Of_eq_nonneg {j : ℕ} {hint : Int32} (hj : j < 2 ^ 32) (h0 : 0 ≤ hint.toInt)
    (h : int32Of j = hint) : j = hint.toInt.toNat := by
  have h1 := toInt_int32Of j
  rw [h, Int.bmod_def] at h1
  split_ifs at h1 <;> omega

/-- The row that a negative hint is mistaken for. -/
theorem int32Of_eq_neg {j : ℕ} {hint : Int32} (hj : j < 2 ^ 32) (h0 : hint.toInt < 0) :
    int32Of j = hint ↔ j = (2 ^ 32 + hint.toInt).toNat := by
  have h1 := toInt_int32Of j
  have h2 := hint.le_toInt
  rw [← Int32.toInt_inj, h1, Int.bmod_def]
  split_ifs <;> omega

/-- The rows the search covers: all but the one a negative hint is mistaken for. -/
def searched (V : ℕ) (hint : Int32) : Set ℕ :=
  {j | j < V ∧ ¬ (hint.toInt < 0 ∧ j = (2 ^ 32 + hint.toInt).toNat)}

section
variable {K : Type} [LinearOrder K]

/-- What is kept after the hint. -/
theorem best_hint (v : ℕ → K) (V : ℕ) (hint : Int32) :
    Best v {j | 0 ≤ hint.toInt ∧ j < V ∧ j = hint.toInt.toNat}
      (if 0 ≤ hint.toInt ∧ hint.toInt.toNat < V then offer v (⊥, 2 ^ 32 - 1) hint.toInt.toNat
        else (⊥, 2 ^ 32 - 1)) := by
  have h0 : Best v ∅ (⊥, 2 ^ 32 - 1) := .none rfl rfl
  split_ifs with h
  · convert h0.step hint.toInt.toNat using 1
    ext j
    simp only [Set.mem_ofPred_eq, Set.mem_insert_iff, Set.mem_empty_iff_false, or_false]
    exact ⟨fun hj => hj.2.2, fun hj => ⟨h.1, hj ▸ h.2, hj⟩⟩
  · convert h0 using 1
    ext j
    simp only [Set.mem_ofPred_eq, Set.mem_empty_iff_false, iff_false]
    rintro ⟨hpos, hlt, rfl⟩
    exact h ⟨hpos, hlt⟩

variable [Field K] [IsStrictOrderedRing K]

/-- The search finds the lowest maximum of the rows it covers. -/
theorem certSearch_lowestMax {v bound : ℕ → K} {margin : K} {V : ℕ} {topn : List ℕ}
    (hV : V < 2 ^ 32) (htopn : ∀ j ∈ topn, j < V) (hb : ∀ j < V, v j ≤ bound j + margin)
    (hint : Int32) (hne : (searched V hint).Nonempty) :
    LowestMax v (searched V hint) (certSearch v bound margin V topn hint) := by
  have hbest1 := best_hint v V hint
  have hbest2 := hbest1.foldl (fun j => int32Of j ≠ hint) topn
  rw [certSearch]
  set S1 : Set ℕ := {j | 0 ≤ hint.toInt ∧ j < V ∧ j = hint.toInt.toNat}
  set b1 : WithBot K × ℕ := if 0 ≤ hint.toInt ∧ hint.toInt.toNat < V then
    offer v (⊥, 2 ^ 32 - 1) hint.toInt.toNat else (⊥, 2 ^ 32 - 1)
  set S2 : Set ℕ := S1 ∪ {j | j ∈ topn ∧ int32Of j ≠ hint}
  set b2 := topn.foldl (fun b j => if int32Of j ≠ hint then offer v b j else b) b1
  set T : WithBot K := b2.1.map (· - margin) with hT
  -- the scan offers the rows that pass the three tests
  let p (j : ℕ) : Prop := int32Of j ≠ hint ∧ ¬ bound j < T ∧ j ∉ topn
  have hscan : iter V b2 (fun j b => if int32Of j = hint then b else if bound j < T then b
      else if j ∈ topn then b else offer v b j) =
      (List.range V).foldl (fun b j => if p j then offer v b j else b) b2 := by
    rw [iter_eq_foldl]
    congr 1
    funext b j
    by_cases h1 : int32Of j = hint <;> by_cases h2 : bound j < T <;> by_cases h3 : j ∈ topn <;>
      simp [p, h1, h2, h3]
  have hbest3 := hbest2.foldl p (List.range V)
  rw [hscan]
  set b3 := (List.range V).foldl (fun b j => if p j then offer v b j else b) b2
  set S3 : Set ℕ := S2 ∪ {j | j ∈ List.range V ∧ p j}
  have hskip : ∀ j < V, int32Of j ≠ hint → j ∈ searched V hint := by
    rintro j hj hne
    exact ⟨hj, fun ⟨h0, heq⟩ => hne ((int32Of_eq_neg (hj.trans hV) h0).mpr heq)⟩
  have hsub : S3 ⊆ searched V hint := by
    rintro j ((⟨h0, hj, -⟩ | ⟨hj, hne⟩) | ⟨hj, hne, -⟩)
    · exact ⟨hj, fun hneg => absurd hneg.1 (not_lt.mpr h0)⟩
    · exact hskip j (htopn j hj) hne
    · exact hskip j (List.mem_range.mp hj) hne
  -- a row that was not evaluated is below one of the anchors
  have hout : ∀ k ∈ searched V hint, k ∉ S3 → b2.2 ∈ S3 ∧ v k < v b2.2 := by
    rintro k ⟨hk, hnot⟩ hk3
    have hne : int32Of k ≠ hint := by
      intro heq
      by_cases h0 : hint.toInt < 0
      · exact hnot ⟨h0, (int32Of_eq_neg (hk.trans hV) h0).mp heq⟩
      · rw [not_lt] at h0
        exact hk3 (.inl (.inl ⟨h0, hk, int32Of_eq_nonneg (hk.trans hV) h0 heq⟩))
    have htop : k ∉ topn := fun hk' => hk3 (.inl (.inr ⟨hk', hne⟩))
    have hlt : (bound k : WithBot K) < T := by
      by_contra hlt
      exact hk3 (.inr ⟨List.mem_range.mpr hk, hne, hlt, htop⟩)
    cases hbest2 with
    | none _ hbot =>
      rw [hT, hbot] at hlt
      exact absurd hlt not_lt_bot
    | some hmax hval =>
      rw [hT, hval, WithBot.map_coe, WithBot.coe_lt_coe] at hlt
      have := hb k hk
      exact ⟨.inl hmax.mem, by linarith⟩
  have hne3 : S3.Nonempty := by
    obtain ⟨k, hk⟩ := hne
    by_cases hk3 : k ∈ S3
    · exact ⟨k, hk3⟩
    · exact ⟨b2.2, (hout k hk hk3).1⟩
  have hmax := (hbest3.lowestMax hne3).1
  refine hmax.extend hsub fun k hk hk3 => ?_
  obtain ⟨hmem, hlt⟩ := hout k hk hk3
  exact hlt.trans_le (hmax.le hmem)

end

/-! ## Soundness -/

/-- An inner product is at most the sum, over its segments, of the products of the norms. -/
theorem sum_le_segments (v h : ℕ → ℝ) (nseg segw : ℕ) :
    ∑ e ∈ Finset.range (nseg * segw), v e * h e ≤ ∑ s ∈ Finset.range nseg,
      √(∑ i ∈ Finset.range segw, v (s * segw + i) ^ 2) *
        √(∑ i ∈ Finset.range segw, h (s * segw + i) ^ 2) := by
  rw [sum_range_mul]
  apply Finset.sum_le_sum
  intro s _
  exact Real.sum_mul_le_sqrt_mul_sqrt (Finset.range segw) _ _

theorem segNorm_eq (segw : ℕ) (h : ℕ → ℝ) (s : ℕ) :
    segNorm Real.sqrt segw h s = √(∑ i ∈ Finset.range segw, h (s * segw + i) ^ 2) := by
  rw [segNorm, iter_sum, zero_add]
  simp only [off_apply, ← sq]

namespace HeadCert
variable (hc : HeadCert ℝ) (bits : UInt32 → ℝ) (m : TileMem ℝ) (h : Loc)

/-- The stored norms of row `j` are at least the norms of its segments. -/
def NormsCover (j : ℕ) : Prop :=
  ∀ s < hc.nseg,
    √(∑ i ∈ Finset.range hc.segw, hc.elem (.exact bits) m j (s * hc.segw + i) ^ 2) ≤ hc.wn j s

/-- The bound of a row whose stored norms are large enough. -/
theorem inner_le_bound {j : ℕ} (hn : hc.NormsCover bits m j) :
    ∑ e ∈ Finset.range hc.NE, hc.elem (.exact bits) m j e * m.col h e ≤
      hc.bound Real.sqrt m h j := by
  have hbound : hc.bound Real.sqrt m h j = ∑ s ∈ Finset.range hc.nseg, hc.wn j s *
      √(∑ i ∈ Finset.range hc.segw, m.col h (s * hc.segw + i) ^ 2) := by
    rw [bound, iter_sum, zero_add]
    simp only [segNorm_eq]
  rw [← hc.segs, hbound]
  refine (sum_le_segments _ _ hc.nseg hc.segw).trans (Finset.sum_le_sum fun s hs => ?_)
  exact mul_le_mul_of_nonneg_right (hn s (Finset.mem_range.mp hs)) (Real.sqrt_nonneg _)

/-- Where no logit exceeds the bound of its row by more than the margin, the search finds the
lowest maximum of the rows it covers. -/
theorem argmax_searched (hseg : hc.nseg ≤ SEGS) {mode : HeadDotMode}
    (hb : ∀ j < hc.V.toNat, hc.logit bits m h mode j ≤ hc.bound Real.sqrt m h j + hc.margin)
    (hint : Int32) (hne : (searched hc.V.toNat hint).Nonempty) :
    ∃ j, hc.argmax Real.sqrt bits m h hint mode = some j ∧
      LowestMax (hc.logit bits m h mode) (searched hc.V.toNat hint) j := by
  rw [argmax, if_pos hseg]
  exact ⟨_, rfl, certSearch_lowestMax hc.V.toNat_lt hc.topn_lt hb hint hne⟩

/-- The logits of a head of floats are inner products. -/
theorem logit_f32 (hf : hc.fmt = .F32) (j : ℕ) : hc.logit bits m h .FAST_DEQ j =
    ∑ e ∈ Finset.range hc.NE, hc.elem (.exact bits) m j e * m.col h e := by
  simp only [logit, HeadMat.dotExact, hf, HeadMat.elem, value_f32]
  rw [dotRowFast_exact]

end HeadCert

/-- The values of whole blocks of a row. -/
theorem HeadMat.segValues_eq {F : Type} (A : Arith F) (M : HeadMat) (hf : ¬ fmtIsCodebook M.fmt)
    (row : ℕ → UInt8) {elem0 n i : ℕ} (he : blkElems M.fmt ∣ elem0) (hn : blkElems M.fmt ∣ n)
    (hi : i < n) : M.segValues A row elem0 n i = value A M.fmt row (elem0 + i) := by
  have hchunk := dequantChunk_eq A row (fun _ => A.zero) M.fmt he hn hi
  rw [chunkValue, if_neg hf] at hchunk
  obtain ⟨f, w, rb, V, NE⟩ := M
  cases f with
  | F32 => exact (value_f32 A row (elem0 + i)).symm
  | Q8_0 => rfl
  | _ => exact hchunk

/-- The squares that `init` sums are those of the elements of a segment. -/
theorem HeadMat.sum_segValues {K : Type} [Field K] (bits : UInt32 → K) (m : TileMem K) {M : HeadMat}
    (hf : ¬ fmtIsCodebook M.fmt) {segw : ℕ} (hdvd : blkElems M.fmt ∣ segw) (j s : ℕ) :
    (iter segw 0 fun i acc =>
      acc + M.segValues (.exact bits) (M.row m j) (s * segw) segw i *
        M.segValues (.exact bits) (M.row m j) (s * segw) segw i) =
      ∑ i ∈ Finset.range segw, M.elem (.exact bits) m j (s * segw + i) ^ 2 := by
  rw [iter_sum, zero_add]
  apply Finset.sum_congr rfl
  intro i hi
  rw [segValues_eq _ M hf _ (Dvd.dvd.mul_left hdvd s) hdvd (Finset.mem_range.mp hi), ← sq]
  rfl

/-- The norms that `init` stores are large enough. -/
theorem HeadCert.init_normsCover (roundUp : ℝ → ℝ) (hup : ∀ x, x ≤ roundUp x) (bits : UInt32 → ℝ)
    (m : TileMem ℝ) {M : HeadMat} (hf : ¬ fmtIsCodebook M.fmt) (hNE : blkElems M.fmt ∣ M.NE)
    (margin : ℝ) (topk j : ℕ) :
    (HeadCert.init Real.sqrt roundUp bits m M hNE margin topk).NormsCover bits m j := by
  intro s _
  refine le_trans (le_of_eq ?_) (hup _)
  rw [HeadMat.sum_segValues bits m hf (segWidth_dvd (blkElems_pos M.fmt) hNE).2]
  rfl

/-! ## A row passed over -/

/-- A head of rows of one float, of which the `2 ^ 31`-th is one and the others are zero. -/
def spikeMem : TileMem ℝ where
  byte p := if p.byte = 2 ^ 33 + 2 then 0x80 else if p.byte = 2 ^ 33 + 3 then 0x3F else 0
  f32 _ := 1
  q81 _ := ⟨0, 0, fun _ => 0⟩
  q8K _ := ⟨0, fun _ => 0, fun _ => 0⟩
  id _ := 0

def spikeHead (V : UInt32) : HeadMat := ⟨.F32, ⟨0, 0⟩, 4, V, 1⟩

theorem spike_elem (V : UInt32) (j : ℕ) :
    (spikeHead V).elem (.exact fun w => (f32Value w : ℝ)) spikeMem j 0 =
      if j = 2 ^ 31 then 1 else 0 := by
  have hrow (k : ℕ) : (spikeHead V).row spikeMem j k =
      if j * 4 + k = 2 ^ 33 + 2 then 0x80 else if j * 4 + k = 2 ^ 33 + 3 then 0x3F else 0 := by
    simp [HeadMat.row, TileMem.row, spikeHead, spikeMem, BytePtr.add]
  have hword : le32 ((spikeHead V).row spikeMem j) (4 * 0) =
      if j = 2 ^ 31 then 0x3F800000 else 0 := by
    by_cases hj : j = 2 ^ 31
    · subst hj
      simp only [le32, hrow]
      decide
    · have hbyte : ∀ k < 4, (spikeHead V).row spikeMem j k = 0 := by
        intro k hk
        rw [hrow, if_neg (by omega), if_neg (by omega)]
      simp only [le32, hbyte 0 (by omega), hbyte 1 (by omega), hbyte 2 (by omega),
        hbyte 3 (by omega), if_neg hj, Nat.mul_zero, Nat.zero_add]
      decide
  have hzero : f32Value 0 = 0 := by
    have hs : (0 : UInt32) >>> 31 = 0 := by decide
    simp [f32Value, hs]
  rw [HeadMat.elem]
  change value _ .F32 _ _ = _
  rw [value_f32, hword]
  split_ifs
  · simp [Arith.exact, f32Value_one]
  · simp [Arith.exact, hzero]

/-! ## Every hint and every set of anchors -/

/-- The search finds the lowest maximum of all rows, for every hint and every set of anchors, unless
it passes over just this row: where no logit exceeds the bound of its row by more than the margin,
as is the case when the logits are inner products and the stored norms large enough. -/
theorem HeadCert.argmax_eq_iff (hc : HeadCert ℝ) (bits : UInt32 → ℝ) (m : TileMem ℝ) (h : Loc)
    (hseg : hc.nseg ≤ SEGS) (mode : HeadDotMode) (hint : Int32) :
    ((∀ j < hc.V.toNat, hc.logit bits m h mode j ≤ hc.bound Real.sqrt m h j + hc.margin) →
      ((∀ j, LowestMax (hc.logit bits m h mode) {j | j < hc.V.toNat} j →
          hc.argmax Real.sqrt bits m h hint mode = some j) ↔
        ¬ (hint.toInt < 0 ∧ LowestMax (hc.logit bits m h mode) {j | j < hc.V.toNat}
          (2 ^ 32 + hint.toInt).toNat))) ∧
    ((∀ j < hc.V.toNat, hc.logit bits m h mode j =
        ∑ e ∈ Finset.range hc.NE, hc.elem (.exact bits) m j e * m.col h e) →
      (∀ j < hc.V.toNat, hc.NormsCover bits m j) → 0 ≤ hc.margin →
      ∀ j < hc.V.toNat, hc.logit bits m h mode j ≤ hc.bound Real.sqrt m h j + hc.margin) := by
  refine ⟨fun hb => ⟨fun hall => ?skipped, fun hnot => ?found⟩, fun hdot hnorm hmargin => ?bound⟩
  case skipped =>
    rintro ⟨h0, hmax⟩
    have hlow := hint.le_toInt
    have hrow := hmax.mem
    have h0s : 0 ∈ searched hc.V.toNat hint := by
      refine ⟨Nat.zero_lt_of_lt hrow, fun hskip => ?_⟩
      have := hskip.2
      omega
    obtain ⟨i, hi, hmaxi⟩ := hc.argmax_searched bits m h hseg hb hint ⟨0, h0s⟩
    obtain rfl : i = (2 ^ 32 + hint.toInt).toNat := Option.some.inj (hi.symm.trans (hall _ hmax))
    exact hmaxi.mem.2 ⟨h0, rfl⟩
  case found =>
    intro j hj
    have hjs : j ∈ searched hc.V.toNat hint := ⟨hj.mem, fun ⟨h0, heq⟩ => hnot ⟨h0, heq ▸ hj⟩⟩
    obtain ⟨i, hi, hmax⟩ := hc.argmax_searched bits m h hseg hb hint ⟨j, hjs⟩
    rw [hi, hmax.unique (hj.subset hjs fun k hk => hk.1)]
  case bound =>
    intro j hj
    have hle := hc.inner_le_bound bits m h (hnorm j hj)
    rw [← hdot j hj] at hle
    linarith

/-- Three rows of zeros, with the second as the hint: the first is found. -/
theorem argmax_eq_iff_three :
    let bits : UInt32 → ℝ := fun w => (f32Value w : ℝ)
    let hc := HeadCert.init Real.sqrt id bits spikeMem (spikeHead 3) (one_dvd 1) 1 64
    let v := hc.logit bits spikeMem ⟨0, 0⟩ .FAST_DEQ
    (∀ j < hc.V.toNat, v j ≤ hc.bound Real.sqrt spikeMem ⟨0, 0⟩ j + hc.margin) ∧
      ∀ j, LowestMax v {j | j < hc.V.toNat} j →
        hc.argmax Real.sqrt bits spikeMem ⟨0, 0⟩ 1 .FAST_DEQ = some j := by
  intro bits hc v
  have hseg : hc.nseg ≤ SEGS := by decide
  obtain ⟨hsound, hcover⟩ := hc.argmax_eq_iff bits spikeMem ⟨0, 0⟩ hseg .FAST_DEQ 1
  have hb := hcover (fun j _ => hc.logit_f32 bits spikeMem ⟨0, 0⟩ rfl j)
    (fun j _ => HeadCert.init_normsCover id (fun _ => le_rfl) bits spikeMem (by decide) _ 1 64 j)
    (by change (0 : ℝ) ≤ 1; exact zero_le_one)
  exact ⟨hb, (hsound hb).mpr fun h => absurd h.1 (by decide)⟩

/-- The row of a vocabulary of `2 ^ 31 + 1` that wraps around to the smallest hint is not found,
although it alone has the largest logit. -/
theorem argmax_misses_row :
    let bits : UInt32 → ℝ := fun w => (f32Value w : ℝ)
    let hc := HeadCert.init Real.sqrt id bits spikeMem (spikeHead 2147483649) (one_dvd 1) 1 64
    let v := hc.logit bits spikeMem ⟨0, 0⟩ .FAST_DEQ
    hc.nseg ≤ SEGS ∧
      (∀ j < hc.V.toNat, v j ≤ hc.bound Real.sqrt spikeMem ⟨0, 0⟩ j + hc.margin) ∧
      LowestMax v {j | j < hc.V.toNat} (2 ^ 31) ∧
      hc.argmax Real.sqrt bits spikeMem ⟨0, 0⟩ (-2147483648) .FAST_DEQ ≠ some (2 ^ 31) := by
  intro bits hc v
  have hV : hc.V.toNat = 2 ^ 31 + 1 := by decide
  have hseg : hc.nseg ≤ SEGS := by decide
  have hv : ∀ j, v j = if j = 2 ^ 31 then 1 else 0 := by
    intro j
    have h1 := hc.logit_f32 bits spikeMem ⟨0, 0⟩ rfl j
    have hNE : hc.NE = 1 := rfl
    rw [hNE, Finset.sum_range_one] at h1
    refine h1.trans ?_
    rw [show hc.elem (.exact bits) spikeMem j 0 = _ from spike_elem 2147483649 j]
    exact mul_one _
  have hb : ∀ j < hc.V.toNat, v j ≤ hc.bound Real.sqrt spikeMem ⟨0, 0⟩ j + hc.margin := by
    intro j _
    have h1 := hc.inner_le_bound bits spikeMem ⟨0, 0⟩ (HeadCert.init_normsCover id (fun _ => le_rfl)
      bits spikeMem (M := spikeHead 2147483649) (by decide) (one_dvd 1) 1 64 j)
    rw [← hc.logit_f32 bits spikeMem ⟨0, 0⟩ rfl j] at h1
    have h2 : hc.margin = 1 := rfl
    have h3 : v j ≤ hc.bound Real.sqrt spikeMem ⟨0, 0⟩ j := h1
    linarith
  have hmax : LowestMax v {j | j < hc.V.toNat} (2 ^ 31) := by
    refine ⟨by rw [Set.mem_ofPred_eq, hV]; omega, fun k _ => ?_⟩
    by_cases hk : k = 2 ^ 31
    · exact .inr ⟨by rw [hk], hk.ge⟩
    · left
      rw [hv, hv, if_neg hk, if_pos rfl]
      exact one_pos
  refine ⟨hseg, hb, hmax, fun hres => ?_⟩
  have h0 : 0 ∈ searched hc.V.toNat (-2147483648) := by
    refine ⟨by rw [hV]; omega, fun h => ?_⟩
    exact absurd h.2 (by decide)
  obtain ⟨i, hi, hmaxi⟩ := hc.argmax_searched bits spikeMem ⟨0, 0⟩ hseg hb (-2147483648) ⟨0, h0⟩
  obtain rfl : i = 2 ^ 31 := Option.some.inj (hi.symm.trans hres)
  exact hmaxi.mem.2 ⟨by decide, by decide⟩

end FastLlm
