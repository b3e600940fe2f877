import FastLlm.Runtime.DotRow
import Mathlib.Algebra.BigOperators.Ring.Finset

/-!
# The fast dequantizing dots

The CPU kernels of the fast mode that take float activations, in their portable variant: sixteen
accumulators and a fixed tree.  Formats other than F32 and Q8_0 are dequantized 256 elements at a
time into a buffer.

`dequantChunk` writes every element of a chunk with the value of the canonical decode, except that
it writes zeros for the two codebook formats (`dequantChunk_eq`).  In exact arithmetic the kernels
give the sum over the elements.

## Main definitions

* `dotRowFast`, `dotRowFastQ80`, `dotRowFastDequant` — the kernels.
* `dequantChunk`, `chunkValue` — the dequantizer, and what it writes.
-/

namespace FastLlm

section
variable {F : Type} (A : Arith F)

/-- The tree over the sixteen accumulators. -/
def fold16 (L : ℕ → F) : F :=
  let s (j : ℕ) : F := A.add (A.add (L j) (L (4 + j))) (A.add (L (8 + j)) (L (12 + j)))
  A.add (A.add (s 0) (s 1)) (A.add (s 2) (s 3))

/-- `a[j] += v`. -/
def addAt {ι : Type} [DecidableEq ι] (a : ι → F) (j : ι) (v : F) : ι → F :=
  Function.update a j (A.add (a j) v)

/-- Additions at two places can be exchanged. -/
theorem addAt_comm {ι : Type} [DecidableEq ι] (a : ι → F) {i j : ι} (h : i ≠ j) (v w : F) :
    addAt A (addAt A a i v) j w = addAt A (addAt A a j w) i v := by
  simp only [addAt, Function.update_of_ne h.symm, Function.update_of_ne h]
  exact Function.update_comm h _ _ _

/-- `dot_row_fast`. -/
def dotRowFast (row x : ℕ → F) (cols : ℕ) : F :=
  let n16 := cols - cols % 16
  let L := iterStep 0 n16 16 (fun _ => A.zero) fun k L =>
    iter 16 L fun j L => addAt A L j (A.mul (row (k + j)) (x (k + j)))
  let tail := iter (cols - n16) A.zero fun i tail =>
    A.add tail (A.mul (row (n16 + i)) (x (n16 + i)))
  A.add (fold16 A L) tail

/-- `dot_row_fast_q8_0`. -/
def dotRowFastQ80 (row : ℕ → UInt8) (x : ℕ → F) (cols : ℕ) : F :=
  fold16 A (iter (cols / 32) (fun _ => A.zero) fun b a =>
    let B := off row (b * 34)
    let d := A.ofHalf (le16 B 0)
    let xb := off x (b * 32)
    iter 8 a fun g a => iter 4 a fun j a =>
      addAt A a (g % 4 * 4 + j)
        (A.mul (A.mul d (A.ofInt (i8 (B (2 + (g * 4 + j)))))) (xb (g * 4 + j))))

/-- `dequant_chunk`: elements `elem0 .. elem0 + n` of a row, into `out`. -/
def dequantChunk (f : Fmt) (row : ℕ → UInt8) (elem0 n : ℕ) (out : ℕ → F) : ℕ → F :=
  let bp := off row (elem0 / blkElems f * blkBytes f)
  match f with
  | .Q5_0 =>
    iter (n / 32) out fun b out =>
      let B := off bp (b * 22)
      let d := A.ofHalf (le16 B 0)
      let qh := le32 B 2
      let qs := off B 6
      iter 16 out fun j out =>
        let xh0 := (((qh >>> UInt32.ofNat j) <<< 4) &&& 0x10).toUInt8
        let xh1 := ((qh >>> UInt32.ofNat (j + 12)) &&& 0x10).toUInt8
        let out := Function.update out (b * 32 + j)
          (A.mul d (A.ofInt (((qs j &&& (0x0F : UInt8)) ||| xh0).toNat - 16)))
        Function.update out (b * 32 + 16 + j) (A.mul d (A.ofInt (((qs j >>> 4) ||| xh1).toNat - 16)))
  | .Q4_K =>
    iter (n / 256) out fun sb out =>
      let B := off bp (sb * 144)
      let d := A.ofHalf (le16 B 0)
      let dmin := A.ofHalf (le16 B 2)
      let scales := off B 4
      iter 4 out fun c out =>
        let q := off B (16 + c * 32)
        let d1 := A.mul d (A.ofU8 (q4kScale scales (2 * c)))
        let m1 := A.mul dmin (A.ofU8 (q4kMin scales (2 * c)))
        let d2 := A.mul d (A.ofU8 (q4kScale scales (2 * c + 1)))
        let m2 := A.mul dmin (A.ofU8 (q4kMin scales (2 * c + 1)))
        let o := sb * 256 + c * 64
        let out := iter 32 out fun l out =>
          Function.update out (o + l) (A.sub (A.mul d1 (A.ofU8 (q l &&& (0x0F : UInt8)))) m1)
        iter 32 out fun l out =>
          Function.update out (o + 32 + l) (A.sub (A.mul d2 (A.ofU8 (q l >>> 4))) m2)
  | .F32 => fun i => if i < n then A.ofBits (le32 row (4 * (elem0 + i))) else out i
  | .Q8_0 =>
    iter (n / 32) out fun b out =>
      let B := off bp (b * 34)
      let d := A.ofHalf (le16 B 0)
      iter 32 out fun j out =>
        Function.update out (b * 32 + j) (A.mul d (A.ofInt (i8 (B (2 + j)))))
  -- reported on stderr as unimplemented
  | .IQ2_XXS | .IQ3_XXS => fun i => if i < n then A.zero else out i
  | .Q6_K =>
    iter (n / 256) out fun sb out =>
      let B := off bp (sb * 210)
      let d := A.ofHalf (le16 B 208)
      iter 2 out fun nn out =>
        let ql := off B (nn * 64)
        let qh := off B (128 + nn * 32)
        let sc := off B (192 + nn * 8)
        let o := sb * 256 + nn * 128
        let w (is : ℕ) (q : UInt8) : F :=
          A.mul (A.mul d (A.ofInt (i8 (sc is)))) (A.ofInt ((q.toNat : ℤ) - 32))
        iter 32 out fun l out =>
          let is := l / 16
          let out := Function.update out (o + l)
            (w (is + 0) ((ql l &&& (0x0F : UInt8)) ||| (((qh l >>> 0) &&& (3 : UInt8)) <<< 4)))
          let out := Function.update out (o + (l + 32))
            (w (is + 2) ((ql (l + 32) &&& (0x0F : UInt8)) ||| (((qh l >>> 2) &&& (3 : UInt8)) <<< 4)))
          let out := Function.update out (o + (l + 64))
            (w (is + 4) ((ql l >>> 4) ||| (((qh l >>> 4) &&& (3 : UInt8)) <<< 4)))
          Function.update out (o + (l + 96))
            (w (is + 6) ((ql (l + 32) >>> 4) ||| (((qh l >>> 6) &&& (3 : UInt8)) <<< 4)))

/-- The length of the chunk from `e` on. -/
def chunkLen (cols e : ℕ) : ℕ := if cols - e < 256 then cols - e else 256

/-- `dot_row_fast_dequant`.  What the buffer holds before a chunk is written to it is not read. -/
def dotRowFastDequant (f : Fmt) (row : ℕ → UInt8) (x : ℕ → F) (cols : ℕ) : F :=
  iterStep 0 cols 256 A.zero fun e acc =>
    let n := chunkLen cols e
    let buf := dequantChunk A f row e n fun _ => A.zero
    A.add acc (dotRowFast A buf (off x e) n)

/-! ## What a chunk holds -/

/-- Element `e` of a row, as `dequantChunk` writes it. -/
def chunkValue (f : Fmt) (row : ℕ → UInt8) (e : ℕ) : F :=
  if fmtIsCodebook f then A.zero else value A f row e

/-- Block `b` of a chunk is a block of the row. -/
theorem value_chunk (f : Fmt) (row : ℕ → UInt8) {elem0 : ℕ} (he : blkElems f ∣ elem0) (b : ℕ)
    {i : ℕ} (hi : i < blkElems f) :
    value A f row (elem0 + (b * blkElems f + i)) =
      blkValue A f (off (off row (elem0 / blkElems f * blkBytes f)) (b * blkBytes f)) i := by
  obtain ⟨c, rfl⟩ := he
  have h1 : blkElems f * c + (b * blkElems f + i) = (c + b) * blkElems f + i := by ring
  have h2 : blkElems f * c / blkElems f = c := Nat.mul_div_cancel_left c (blkElems_pos f)
  rw [h1, value_block A f row _ hi, h2]
  congr 1
  funext k
  simp only [off_apply]
  congr 1
  ring

section Chunk
variable (row : ℕ → UInt8) {elem0 n i : ℕ} (out : ℕ → F)

theorem dequantChunk_q80 (he : 32 ∣ elem0) (hn : 32 ∣ n) (hi : i < n) :
    dequantChunk A .Q8_0 row elem0 n out i = value A .Q8_0 row (elem0 + i) := by
  have hfill : Fills (fun k => value A .Q8_0 row (elem0 + k))
      (fun k => ∃ b < n / 32, ∃ j < 32, k = b * 32 + j) out
      (dequantChunk A .Q8_0 row elem0 n out) := by
    apply Fills.loop
    intro b _ o
    apply Fills.loop
    intro j hj o
    exact Fills.store (value_chunk A .Q8_0 row he b hj).symm
  exact hfill i (.inl ⟨i / 32, by omega, i % 32, by omega, by omega⟩)

theorem dequantChunk_q50 (he : 32 ∣ elem0) (hn : 32 ∣ n) (hi : i < n) :
    dequantChunk A .Q5_0 row elem0 n out i = value A .Q5_0 row (elem0 + i) := by
  have hfill : Fills (fun k => value A .Q5_0 row (elem0 + k))
      (fun k => ∃ b < n / 32, ∃ j < 16, k = b * 32 + j ∨ k = b * 32 + 16 + j) out
      (dequantChunk A .Q5_0 row elem0 n out) := by
    apply Fills.loop
    intro b _ o
    apply Fills.loop
    intro j hj o
    refine (Fills.store ?lo).trans (Fills.store ?hi)
    case lo =>
      have h1 : b * 32 + j = b * blkElems .Q5_0 + j := by simp only [blkElems]
      rw [h1, value_chunk A .Q5_0 row he b (i := j) (by simp only [blkElems]; omega)]
      simp only [blkValue, q50Weight, hj, if_true]
      rfl
    case hi =>
      have h1 : b * 32 + 16 + j = b * blkElems .Q5_0 + (16 + j) := by simp only [blkElems]; omega
      have h2 : ¬ 16 + j < 16 := by omega
      rw [h1, value_chunk A .Q5_0 row he b (i := 16 + j) (by simp only [blkElems]; omega)]
      simp only [blkValue, q50Weight, h2, if_false, Nat.add_sub_cancel_left]
      rfl
  exact hfill i (.inl ⟨i / 32, by omega, i % 32 % 16, by omega, by omega⟩)

theorem dequantChunk_q4K (he : 256 ∣ elem0) (hn : 256 ∣ n) (hi : i < n) :
    dequantChunk A .Q4_K row elem0 n out i = value A .Q4_K row (elem0 + i) := by
  have hfill : Fills (fun k => value A .Q4_K row (elem0 + k))
      (fun k => ∃ sb < n / 256, ∃ c < 4, (∃ l < 32, k = sb * 256 + c * 64 + l) ∨
        ∃ l < 32, k = sb * 256 + c * 64 + 32 + l) out
      (dequantChunk A .Q4_K row elem0 n out) := by
    apply Fills.loop
    intro sb _ o
    apply Fills.loop
    intro c hc o
    refine (Fills.loop fun l hl o => Fills.store ?lo).trans (Fills.loop fun l hl o => Fills.store ?hi)
    case lo =>
      have h1 : sb * 256 + c * 64 + l = sb * blkElems .Q4_K + (c * 64 + l) := by
        simp only [blkElems]; omega
      have h2 : (c * 64 + l) / 32 = 2 * c := by omega
      rw [h1, value_chunk A .Q4_K row he sb (i := c * 64 + l) (by simp only [blkElems]; omega)]
      simp only [blkValue, q4kWeight_lo _ _ hl, h2]
      rfl
    case hi =>
      have h1 : sb * 256 + c * 64 + 32 + l = sb * blkElems .Q4_K + (c * 64 + (32 + l)) := by
        simp only [blkElems]; omega
      have h2 : (c * 64 + (32 + l)) / 32 = 2 * c + 1 := by omega
      rw [h1,
        value_chunk A .Q4_K row he sb (i := c * 64 + (32 + l)) (by simp only [blkElems]; omega)]
      simp only [blkValue, q4kWeight_hi _ _ hl, h2]
      rfl
  refine hfill i (.inl ⟨i / 256, by omega, i % 256 / 64, by omega, ?_⟩)
  by_cases h : i % 64 < 32
  · exact .inl ⟨i % 64, h, by omega⟩
  · exact .inr ⟨i % 64 - 32, by omega, by omega⟩

/-- Element `l` of span `s` of half `nn` of a Q6_K superblock. -/
theorem value_q6Span (he : 256 ∣ elem0) (sb : ℕ) {nn s l p : ℕ} (hnn : nn < 2) (hs : s < 4)
    (hl : l < 32) (hp : p = sb * 256 + nn * 128 + (l + 32 * s)) :
    value A .Q6_K row (elem0 + p) =
      blkValue A .Q6_K (off (off row (elem0 / blkElems .Q6_K * blkBytes .Q6_K)) (sb * 210))
        (nn * 128 + s * 32 + l) := by
  have h1 : p = sb * blkElems .Q6_K + (nn * 128 + s * 32 + l) := by
    rw [hp, blkElems, Nat.add_assoc, Nat.add_comm l, Nat.mul_comm 32, Nat.add_assoc (nn * 128)]
  have h2 : nn * 128 + s * 32 + l < blkElems .Q6_K := by simp only [blkElems]; omega
  rw [h1, value_chunk A .Q6_K row he sb h2]
  simp only [blkBytes]

theorem dequantChunk_q6K (he : 256 ∣ elem0) (hn : 256 ∣ n) (hi : i < n) :
    dequantChunk A .Q6_K row elem0 n out i = value A .Q6_K row (elem0 + i) := by
  have hfill : Fills (fun k => value A .Q6_K row (elem0 + k))
      (fun k => ∃ sb < n / 256, ∃ nn < 2, ∃ l < 32,
        ((k = sb * 256 + nn * 128 + l ∨ k = sb * 256 + nn * 128 + (l + 32)) ∨
          k = sb * 256 + nn * 128 + (l + 64)) ∨ k = sb * 256 + nn * 128 + (l + 96)) out
      (dequantChunk A .Q6_K row elem0 n out) := by
    apply Fills.loop
    intro sb _ o
    apply Fills.loop
    intro nn hnn o
    apply Fills.loop
    intro l hl o
    refine (((Fills.store ?s0).trans (Fills.store ?s1)).trans (Fills.store ?s2)).trans
      (Fills.store ?s3)
    case s0 =>
      rw [value_q6Span A row he sb (s := 0) hnn (by omega) hl (by omega)]
      simp only [blkValue, q6Weight_span _ nn (show 0 < 4 by omega) hl,
        q6Scale_span _ nn (show 0 < 4 by omega) hl, Nat.add_comm (l / 16)]
      rfl
    case s1 =>
      rw [value_q6Span A row he sb (s := 1) hnn (by omega) hl (by omega)]
      simp only [blkValue, q6Weight_span _ nn (show 1 < 4 by omega) hl,
        q6Scale_span _ nn (show 1 < 4 by omega) hl, Nat.add_comm (l / 16)]
      rfl
    case s2 =>
      rw [value_q6Span A row he sb (s := 2) hnn (by omega) hl (by omega)]
      simp only [blkValue, q6Weight_span _ nn (show 2 < 4 by omega) hl,
        q6Scale_span _ nn (show 2 < 4 by omega) hl, Nat.add_comm (l / 16)]
      rfl
    case s3 =>
      rw [value_q6Span A row he sb (s := 3) hnn (by omega) hl (by omega)]
      simp only [blkValue, q6Weight_span _ nn (show 3 < 4 by omega) hl,
        q6Scale_span _ nn (show 3 < 4 by omega) hl, Nat.add_comm (l / 16)]
      rfl
  refine hfill i (.inl ⟨i / 256, by omega, i % 256 / 128, by omega, i % 32, by omega, ?_⟩)
  omega

/-- A chunk holds the elements of the row, or zeros for a codebook format. -/
theorem dequantChunk_eq (f : Fmt) (he : blkElems f ∣ elem0) (hn : blkElems f ∣ n) (hi : i < n) :
    dequantChunk A f row elem0 n out i = chunkValue A f row (elem0 + i) := by
  cases f with
  | F32 =>
      have h1 : chunkValue A .F32 row (elem0 + i) = value A .F32 row (elem0 + i) := rfl
      rw [h1, value_f32]
      simp only [dequantChunk, hi, if_true]
  | Q8_0 => exact dequantChunk_q80 A row out he hn hi
  | Q5_0 => exact dequantChunk_q50 A row out he hn hi
  | Q4_K => exact dequantChunk_q4K A row out he hn hi
  | Q6_K => exact dequantChunk_q6K A row out he hn hi
  | IQ2_XXS =>
      have h1 : chunkValue A .IQ2_XXS row (elem0 + i) = A.zero := rfl
      rw [h1]
      simp only [dequantChunk, hi, if_true]
  | IQ3_XXS =>
      have h1 : chunkValue A .IQ3_XXS row (elem0 + i) = A.zero := rfl
      rw [h1]
      simp only [dequantChunk, hi, if_true]

end Chunk

end

/-! ## Exact arithmetic -/

section Exact
variable {K : Type} [Field K] (bits : UInt32 → K)

theorem fold16_exact (L : ℕ → K) : fold16 (.exact bits) L = ∑ j ∈ Finset.range 16, L j := by
  simp only [fold16, Finset.sum_range_succ, Finset.sum_range_zero, Arith.exact_add]
  ring

/-- A term added to one of the sixteen accumulators is added to their sum. -/
theorem fold16_addAt (a : ℕ → K) {j : ℕ} (hj : j < 16) (v : K) :
    fold16 (.exact bits) (addAt (.exact bits) a j v) = fold16 (.exact bits) a + v := by
  rw [fold16_exact, fold16_exact]
  exact sum_update_add hj a v

theorem fold16_zero : fold16 (.exact bits) (fun _ => (Arith.exact bits).zero) = (0 : K) := by
  rw [fold16_exact]
  exact Finset.sum_const_zero

/-- A loop whose rounds add `g i` to the sum of the accumulators. -/
theorem fold16_iter {n : ℕ} {f : ℕ → (ℕ → K) → ℕ → K} {g : ℕ → K} (a : ℕ → K)
    (h : ∀ i < n, ∀ a, fold16 (.exact bits) (f i a) = fold16 (.exact bits) a + g i) :
    fold16 (.exact bits) (iter n a f) =
      fold16 (.exact bits) a + ∑ i ∈ Finset.range n, g i := by
  rw [iter_hom (fold16 (.exact bits)) (g := fun i s => s + g i) h, iter_sum]

theorem fold16_loop {n : ℕ} {f : ℕ → (ℕ → K) → ℕ → K} {g : ℕ → K}
    (h : ∀ i < n, ∀ a, fold16 (.exact bits) (f i a) = fold16 (.exact bits) a + g i) :
    fold16 (.exact bits) (iter n (fun _ => (Arith.exact bits).zero) f) =
      ∑ i ∈ Finset.range n, g i := by
  rw [fold16_iter bits _ h, fold16_zero, zero_add]

theorem dotRowFast_exact (row x : ℕ → K) (cols : ℕ) :
    dotRowFast (.exact bits) row x cols = ∑ k ∈ Finset.range cols, row k * x k := by
  set n16 := cols - cols % 16 with hn16
  have hcount : (n16 - 0 + 16 - 1) / 16 = n16 / 16 := by omega
  have hhead : fold16 (.exact bits) (iterStep 0 n16 16 (fun _ => (Arith.exact bits).zero) fun k L =>
      iter 16 L fun j L => addAt (.exact bits) L j ((Arith.exact bits).mul (row (k + j)) (x (k + j)))) =
      ∑ k ∈ Finset.range n16, row k * x k := by
    rw [iterStep, hcount]
    conv_rhs => rw [show n16 = n16 / 16 * 16 by omega, sum_range_mul]
    apply fold16_loop
    intro c _ a
    rw [Nat.zero_add]
    apply fold16_iter
    intro j hj a
    exact fold16_addAt bits a hj _
  have hsplit : cols = n16 + (cols - n16) := by omega
  have htail : iter (cols - n16) (Arith.exact bits).zero (fun i tail =>
      (Arith.exact bits).add tail ((Arith.exact bits).mul (row (n16 + i)) (x (n16 + i)))) =
      ∑ i ∈ Finset.range (cols - n16), row (n16 + i) * x (n16 + i) := by
    simp only [Arith.exact_add, Arith.exact_mul, Arith.exact_zero]
    rw [iter_sum, zero_add]
  conv_rhs => rw [hsplit, Finset.sum_range_add]
  rw [← hhead, ← htail]
  rfl

theorem dotRowFastQ80_exact (row : ℕ → UInt8) (x : ℕ → K) {cols : ℕ} (hc : 32 ∣ cols) :
    dotRowFastQ80 (.exact bits) row x cols =
      ∑ e ∈ Finset.range cols, value (.exact bits) .Q8_0 row e * x e := by
  rw [sum_value_blocks bits .Q8_0 row x hc, dotRowFastQ80]
  apply fold16_loop
  intro b _ a
  simp only [blkElems, blkBytes]
  rw [sum_range_mul 8 4]
  apply fold16_iter bits a
  intro g _ a
  apply fold16_iter bits a
  intro j hj a
  exact fold16_addAt bits a (by omega) _

theorem dotRowFastDequant_exact (f : Fmt) (row : ℕ → UInt8) (x : ℕ → K) {cols : ℕ}
    (hc : blkElems f ∣ cols) :
    dotRowFastDequant (.exact bits) f row x cols =
      ∑ e ∈ Finset.range cols, chunkValue (.exact bits) f row e * x e := by
  have h256 : blkElems f ∣ 256 := by cases f <;> decide
  rw [dotRowFastDequant, iterStep, ← sum_chunks (show 0 < 256 by omega)]
  simp only [Arith.exact_add, Arith.exact_zero, Nat.zero_add, Nat.sub_zero]
  rw [iter_sum, zero_add]
  refine Finset.sum_congr rfl fun k _ => ?_
  have he : blkElems f ∣ k * 256 := h256.mul_left k
  have hn : blkElems f ∣ chunkLen cols (k * 256) := by
    rw [chunkLen]
    split_ifs
    · exact Nat.dvd_sub hc he
    · exact h256
  rw [dotRowFast_exact]
  refine Finset.sum_congr rfl fun i hi => ?_
  rw [dequantChunk_eq _ row _ f he hn (Finset.mem_range.mp hi), off_apply]

end Exact
end FastLlm
