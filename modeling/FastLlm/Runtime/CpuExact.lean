import FastLlm.Runtime.CpuExec
import Mathlib.Algebra.CharZero.Defs
import Mathlib.Tactic.FieldSimp
import Mathlib.Tactic.NormNum

/-!
# The fast kernels against the canonical ones

In exact arithmetic a tile under the fast kernels, with the int8 paths masked off, leaves what the
canonical executor leaves, for every format but the two codebook formats: those are dequantized to
zeros, so that a codebook tile adds nothing (`execDotCpu_fast_iff`).

## Main definitions

* `f32Value` — the number a finite float stands for.
* `oneWeight` — a memory in which the first weight and the first activation are one.
-/

namespace FastLlm

/-- The number of a finite float. -/
def f32Value (w : UInt32) : ℚ :=
  let e := ((w >>> 23) &&& 0xFF).toNat
  let m := (w &&& 0x7FFFFF).toNat
  let v : ℚ := if e = 0 then m * 2 / 2 ^ 150 else (2 ^ 23 + m : ℕ) * 2 ^ e / 2 ^ 150
  if w >>> 31 = 0 then v else -v

section
variable {F : Type} (A : Arith F)

/-- Additions, seen from elsewhere. -/
theorem foldl_addAt_other {ι β : Type} [DecidableEq ι] (key : β → ι) (v : β → F) (l : List β)
    (a : ι → F) {k : ι} (hk : k ∉ l.map key) :
    l.foldl (fun a b => addAt A a (key b) (v b)) a k = a k := by
  induction l generalizing a with
  | nil => rfl
  | cons d l ih =>
    rw [List.map_cons, List.mem_cons, not_or] at hk
    rw [List.foldl_cons, ih _ hk.2, addAt, Function.update_of_ne hk.1]

/-- Additions at different places, seen from one of the places. -/
theorem foldl_addAt_mem {ι β : Type} [DecidableEq ι] (key : β → ι) (v : β → F) {l : List β} {b : β}
    (hb : b ∈ l) (hnd : (l.map key).Nodup) (a : ι → F) :
    l.foldl (fun a b => addAt A a (key b) (v b)) a (key b) = A.add (a (key b)) (v b) := by
  induction l generalizing a with
  | nil => cases hb
  | cons d l ih =>
    rw [List.map_cons, List.nodup_cons] at hnd
    rw [List.foldl_cons]
    rcases List.mem_cons.mp hb with rfl | hmem
    · rw [foldl_addAt_other A key v l _ hnd.1, addAt, Function.update_self]
    · have hne : key b ≠ key d := by
        intro heq
        exact hnd.1 (heq ▸ List.mem_map_of_mem hmem)
      rw [ih hmem hnd.2, addAt, Function.update_of_ne hne]

/-- What a tile leaves at one of its outputs. -/
theorem addTile_out {t : TaskParams} (ht : DotTile t) (v : ℕ → ℕ → F) (y : Loc → F) {r p : ℕ}
    (hr : r < t.rows) (hp : p < t.nx) :
    addTile A t v y (t.out p r) = A.add (y (t.out p r)) (v r p) := by
  rw [addTile_eq_foldl, ht.columns_eq]
  have hmem : (r, p) ∈ List.range t.rows ×ˢ List.range t.nx := by
    simp only [List.mem_product, List.mem_range]
    exact ⟨hr, hp⟩
  apply foldl_addAt_mem A (fun c : ℕ × ℕ => t.out c.2 c.1) (fun c => v c.1 c.2) hmem
  apply List.Nodup.map_on _ (List.nodup_range.product List.nodup_range)
  rintro ⟨r, p⟩ hrp ⟨s, q⟩ hsq heq
  simp only [List.mem_product, List.mem_range] at hrp hsq
  obtain ⟨h1, h2⟩ := ht.out_inj hrp.2 hsq.2 hrp.1 hsq.1 heq
  exact Prod.ext h2 h1

theorem addTile_congr {t : TaskParams} (ht : DotTile t) {v v' : ℕ → ℕ → F}
    (h : ∀ r < t.rows, ∀ p < t.nx, v r p = v' r p) (y : Loc → F) :
    addTile A t v y = addTile A t v' y := by
  apply iter_congr
  intro r hr y
  rw [ht.columns_eq]
  apply iter_congr
  intro p hp y
  rw [h r hr p hp]

end

section
variable {K : Type} [Field K] (bits : UInt32 → K)

/-- Exact additions can be taken back. -/
theorem addTile_exact_inj {t : TaskParams} (ht : DotTile t) {v v' : ℕ → ℕ → K} (y : Loc → K) :
    addTile (.exact bits) t v y = addTile (.exact bits) t v' y ↔
      ∀ r < t.rows, ∀ p < t.nx, v r p = v' r p := by
  constructor
  · intro h r hr p hp
    have hout := congrFun h (t.out p r)
    rw [addTile_out _ ht v y hr hp, addTile_out _ ht v' y hr hp] at hout
    exact add_left_cancel hout
  · intro h
    exact addTile_congr _ ht h y

/-- What the fast kernels add, when the int8 paths are masked off. -/
theorem cpuDot_exact {c : CpuConfig} (hfast : c.fast = true) {t : TaskParams}
    (hi8 : maskBit c.i8Mask t.fmt = false) (hi8k : maskBit c.i8kMask t.fmt = false)
    (hc : blkElems t.fmt ∣ t.cols) (m : TileMem K) (r : ℕ) (x : Loc) :
    cpuDot (.exact bits) c m t r x = ∑ e ∈ Finset.range t.cols,
      chunkValue (.exact bits) t.fmt (m.row ((tileW m t).add (r * rowBytes t.fmt t.cols))) e *
        m.col x e := by
  simp only [cpuDot, hfast, hi8, hi8k, not_true_eq_false, Bool.false_eq_true, and_false, if_false]
  split
  · next hf =>
    rw [dotRowFast_exact]
    refine Finset.sum_congr rfl fun e _ => ?_
    rw [hf, ← value_f32]
    rfl
  · next hf =>
    rw [hf] at hc ⊢
    exact dotRowFastQ80_exact bits _ _ hc
  · exact dotRowFastDequant_exact bits _ _ _ hc

/-- The canonical executor and the fast kernels leave the same, for one memory. -/
theorem execDotCpu_eq_iff {c : CpuConfig} (hfast : c.fast = true) {t : TaskParams} (ht : DotTile t)
    (hi8 : maskBit c.i8Mask t.fmt = false) (hi8k : maskBit c.i8kMask t.fmt = false)
    (m : TileMem K) (y : Loc → K) :
    execDotCpu (.exact bits) c m t y = execDotScalar (.exact bits) m t y ↔
      fmtIsCodebook t.fmt = false ∨ ∀ r < t.rows, ∀ p < t.nx, ∑ e ∈ Finset.range t.cols,
        value (.exact bits) t.fmt (m.row ((tileW m t).add (r * rowBytes t.fmt t.cols))) e *
          m.col (t.inCol p) e = 0 := by
  rw [execDotCpu_eq, execDotScalar, addTile_exact_inj bits ht]
  simp only [cpuDot_exact bits hfast hi8 hi8k ht.cols, dotRowAny_exact bits _ _ _ ht.cols]
  rcases Bool.eq_false_or_eq_true (fmtIsCodebook t.fmt) with hf | hf
  · simp only [chunkValue, hf, if_true, Arith.exact_zero, zero_mul, Finset.sum_const_zero]
    constructor
    · intro h
      exact .inr fun r hr p hp => (h r hr p hp).symm
    · intro h r hr p hp
      exact (h.resolve_left (by decide) r hr p hp).symm
  · simp only [chunkValue, hf, Bool.false_eq_true, if_false, implies_true, true_or]

end

/-! ## A codebook tile -/

/-- The bytes of a row whose first scale is one. -/
def oneRow : ℕ → UInt8 := fun i => if i = 1 then 0x3C else 0

/-- The memory in which the first weight and the first activation of a tile are one. -/
def oneWeight (K : Type) [Field K] (t : TaskParams) : TileMem K where
  byte p := if p = t.w.add 1 then 0x3C else 0
  f32 l := if l = t.x then 1 else 0
  q81 _ := ⟨0, 0, fun _ => 0⟩
  q8K _ := ⟨0, fun _ => 0, fun _ => 0⟩
  id _ := 0

section
variable {K : Type} [Field K] [CharZero K] (bits : UInt32 → K)

/-- The first weight of a codebook row with scale one and grid indices zero. -/
theorem value_oneRow (hone : bits 0x3F800000 = 1) {f : Fmt} (hf : fmtIsCodebook f = true) :
    value (.exact bits) f oneRow 0 = 1 := by
  have hd : (Arith.exact bits).ofHalf (le16 oneRow 0) = 1 := by
    have h1 : half2float (le16 oneRow 0) = 0x3F800000 := by decide
    rw [Arith.ofHalf, h1]
    exact hone
  have hoff : off oneRow 0 = oneRow := by
    funext i
    simp [off]
  cases f with
  | F32 | Q8_0 | Q5_0 | Q4_K | Q6_K => cases hf
  | IQ2_XXS =>
    have hw : iq2Words oneRow 0 = (0, 0) := by decide
    have hg : gridByte2 (iq2Entry 0 0) 0 = 8 := by decide
    have hs : iqSigns 0 0 = 0 := by decide
    simp only [value, blkValue, blkElems, Nat.zero_div, Nat.zero_mod, Nat.zero_mul, hoff, hd, hw,
      hg, hs]
    simp [iqScale, signed, Arith.ofU8, Arith.exact]
    norm_num
  | IQ3_XXS =>
    have hw : iq3Word oneRow 0 = 0 := by
      rw [iq3Word, u8Quad, iter_four]
      decide
    have hg : gridByte3 (kIq3xxsGrid (oneRow 2).toNat) 0 = 4 := by decide
    have hs : iqSigns 0 0 = 0 := by decide
    simp only [value, blkValue, blkElems, Nat.zero_div, Nat.zero_mod, Nat.zero_mul, hoff, hd, hw,
      hg, hs]
    simp [iqScale, signed, Arith.ofU8, Arith.exact]
    norm_num

/-- In `oneWeight` the first dot of a tile is one. -/
theorem dot_oneWeight (hone : bits 0x3F800000 = 1) {t : TaskParams}
    (hf : fmtIsCodebook t.fmt = true) (hcols : 0 < t.cols) :
    ∑ e ∈ Finset.range t.cols, value (.exact bits) t.fmt
      ((oneWeight K t).row ((tileW (oneWeight K t) t).add (0 * rowBytes t.fmt t.cols))) e *
        (oneWeight K t).col (t.inCol 0) e = 1 := by
  have hw : tileW (oneWeight K t) t = t.w := by
    unfold tileW
    split
    · simp [oneWeight, BytePtr.add]
    · rfl
  have hrow : (oneWeight K t).row ((tileW (oneWeight K t) t).add (0 * rowBytes t.fmt t.cols)) =
      oneRow := by
    funext i
    rw [hw]
    simp [TileMem.row, oneWeight, oneRow, BytePtr.add]
  have hcol : ∀ e, (oneWeight K t).col (t.inCol 0) e = if e = 0 then 1 else 0 := by
    intro e
    have h1 : t.x.add e = t.x ↔ e = 0 := by
      cases ht : t.x
      simp [Loc.add]
    simp only [TileMem.col, oneWeight, TaskParams.inCol, Nat.zero_mul, Loc.add_zero, h1]
  simp only [hrow, hcol, mul_ite, mul_one, mul_zero, Finset.sum_ite_eq', Finset.mem_range, hcols,
    if_true]
  exact value_oneRow bits hone hf

end

theorem f32Value_one : f32Value 0x3F800000 = 1 := by
  have he : (((0x3F800000 : UInt32) >>> 23) &&& 0xFF).toNat = 127 := by decide
  have hm : ((0x3F800000 : UInt32) &&& 0x7FFFFF).toNat = 0 := by decide
  have hs : (0x3F800000 : UInt32) >>> 31 = 0 := by decide
  simp only [f32Value, he, hm, hs]
  norm_num

end FastLlm
