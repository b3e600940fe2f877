import FastLlm.Runtime.GpuWords

/-!
# The GPU kernels for float activations

In exact arithmetic the lanes of a warp hold together what the canonical kernel computes for the
row.  Every kernel but that for F32 gives a lane the elements of one remainder modulo 32, so that
one lemma about the deal (`lanes_exact`) and one about what a lane holds give the sum of the lanes.

## Main definitions

* `laneDot` — the part of a row of the elements that leave one remainder modulo 32.
-/

namespace FastLlm

open Cuda

/-- A staged table holds the entries it was filled with. -/
theorem GpuBlock.stage_apply (B : GpuBlock) {α : Type} {n : ℕ} (table g : ℕ → α) {i : ℕ}
    (hi : i < n) : B.stage n table g i = table i := by
  have hpos : 0 < B.blockDim := Nat.mul_pos (by omega) B.nw_pos
  have hthread : ∀ tid, ∀ o, Fills table
      (fun k => ∃ j < (n - tid + B.blockDim - 1) / B.blockDim, k = tid + j * B.blockDim) o
      (iterStep tid n B.blockDim o fun i g => Function.update g i (table i)) := by
    intro tid o
    exact Fills.loop fun j _ o => Fills.store rfl
  have hall := Fills.loop (n := B.blockDim) (o := g) fun tid _ o => hthread tid o
  apply hall i (.inl ?_)
  have hmod := Nat.mod_lt i hpos
  have hmem := (mem_strided hmod).mpr ⟨hi, rfl⟩
  rw [strided, List.mem_map] at hmem
  obtain ⟨j, hj, hij⟩ := hmem
  exact ⟨i % B.blockDim, hmod, j, List.mem_range.mp hj, hij.symm⟩

section
variable {K : Type} [Field K] (bits : UInt32 → K)

/-- A loop every round of which adds to the accumulator. -/
theorem iter_adds {n : ℕ} {f : ℕ → K → K} {g : ℕ → K} (a : K)
    (h : ∀ i < n, ∀ a, f i a = a + g i) : iter n a f = a + ∑ i ∈ Finset.range n, g i := by
  rw [iter_congr h, iter_sum]

/-- The elements of a row that leave the remainder `lane` modulo 32, against the activation. -/
def laneDot (f : Fmt) (row : ℕ → UInt8) (x : ℕ → K) (cols lane : ℕ) : K :=
  ∑ b ∈ Finset.range (cols / blkElems f), ∑ k ∈ Finset.range (blkElems f / 32),
    blkValue (.exact bits) f (off row (b * blkBytes f)) (k * 32 + lane) *
      x (b * blkElems f + (k * 32 + lane))

/-- Every element is dealt to one lane. -/
theorem lanes_exact {f : Fmt} (hf : 32 ∣ blkElems f) (row : ℕ → UInt8) (x : ℕ → K) {cols : ℕ}
    (hc : blkElems f ∣ cols) :
    ∑ lane ∈ Finset.range 32, laneDot bits f row x cols lane =
      dotRowAny (.exact bits) f row x cols := by
  rw [dotRowAny_exact bits f row x hc, sum_value_blocks bits f row x hc]
  simp only [laneDot]
  rw [Finset.sum_comm]
  apply Finset.sum_congr rfl
  intro b _
  rw [Finset.sum_comm]
  have hsplit := sum_range_mul (blkElems f / 32) 32 fun i =>
    blkValue (.exact bits) f (off row (b * blkBytes f)) i * x (b * blkElems f + i)
  rw [Nat.div_mul_cancel hf] at hsplit
  exact hsplit.symm

/-! ## What a lane holds -/

theorem gdotF32_lanes (row : ℕ → UInt8) (x : ℕ → K) {cols : ℕ} (hc : 4 ∣ cols) :
    ∑ lane ∈ Finset.range 32, gdotF32Lane (.exact bits) row x cols lane =
      dotRowAny (.exact bits) .F32 row x cols := by
  have hlane : ∀ lane ∈ Finset.range 32, gdotF32Lane (.exact bits) row x cols lane =
      ∑ k ∈ Finset.range ((cols / 4 - lane + 32 - 1) / 32), ∑ j ∈ Finset.range 4,
        value (.exact bits) .F32 row ((lane + k * 32) * 4 + j) * x ((lane + k * 32) * 4 + j) := by
    intro lane _
    rw [gdotF32Lane, iterStep, iter_adds _ fun k _ a => iter_adds a fun j _ a => add_comm _ a]
    rw [Arith.exact_zero, zero_add]
    simp only [value_f32, Arith.exact_ofBits, Nat.mul_comm 4 (lane + _ * 32)]
  rw [Finset.sum_congr rfl hlane, sum_lanes (by omega) fun c => ∑ j ∈ Finset.range 4,
    value (.exact bits) .F32 row (c * 4 + j) * x (c * 4 + j), ← sum_range_mul (cols / 4) 4 fun e =>
    value (.exact bits) .F32 row e * x e, Nat.div_mul_cancel hc]
  exact (dotRowAny_exact bits .F32 row x (one_dvd cols)).symm

theorem gdotQ80Lane_eq (row : ℕ → UInt8) (x : ℕ → K) (cols lane : ℕ) :
    gdotQ80Lane (.exact bits) row x cols lane = laneDot bits .Q8_0 row x cols lane := by
  rw [gdotQ80Lane, iter_adds _ fun b _ a => add_comm _ a, Arith.exact_zero, zero_add]
  apply Finset.sum_congr rfl
  intro b _
  simp [blkElems, blkBytes, shfl, blkValue]

theorem gdotQ50Lane_eq (row : ℕ → UInt8) (x : ℕ → K) (cols : ℕ) {lane : ℕ} (hl : lane < 32) :
    gdotQ50Lane (.exact bits) row x cols lane = laneDot bits .Q5_0 row x cols lane := by
  rw [gdotQ50Lane, iter_adds (g := fun b => blkValue (.exact bits) .Q5_0 (off row (b * 22)) lane *
    x (b * 32 + lane)), Arith.exact_zero, zero_add]
  · simp [laneDot, blkElems, blkBytes]
  · intro b _ a
    simp only [shfl, if_true, u16Pair_eq, toNat_or_flag]
    split
    · next hlow =>
      have hj : lane % 16 = lane := Nat.mod_eq_of_lt hlow
      rw [hj, Arith.exact_fma, add_comm]
      simp only [blkValue, q50Weight, hlow, if_true]
    · next hhigh =>
      have hj : lane % 16 = lane - 16 := by omega
      have he : b * 32 + 16 + (lane - 16) = b * 32 + lane := by omega
      rw [hj, he, Arith.exact_fma, add_comm]
      simp only [blkValue, q50Weight, hhigh, if_false]

theorem gdotQ4KLane_eq (row : ℕ → UInt8) (x : ℕ → K) (cols : ℕ) {lane : ℕ} (hl : lane < 32) :
    gdotQ4KLane (.exact bits) row x cols lane = laneDot bits .Q4_K row x cols lane := by
  rw [gdotQ4KLane, iter_adds _ fun sb _ a => ?_, Arith.exact_zero, zero_add]
  · rfl
  · simp only [blkElems, blkBytes, Nat.reduceDiv]
    rw [sum_range_mul 4 2]
    apply iter_adds
    intro c _ a
    have hlo : (c * 2 + 0) * 32 + lane = c * 64 + lane := by omega
    have hhi : (c * 2 + 1) * 32 + lane = c * 64 + (32 + lane) := by omega
    have h1 : (c * 64 + lane) / 32 = 2 * c := by omega
    have h2 : (c * 64 + (32 + lane)) / 32 = 2 * c + 1 := by omega
    rw [Finset.sum_range_succ, Finset.sum_range_one, hlo, hhi]
    simp only [blkValue, h1, h2, q4kWeight_lo _ _ hl, q4kWeight_hi _ _ hl, off_apply,
      Arith.exact_fma, Nat.add_assoc]
    ring

theorem gdotQ6KLane_eq (row : ℕ → UInt8) (x : ℕ → K) (cols : ℕ) {lane : ℕ} (hl : lane < 32) :
    gdotQ6KLane (.exact bits) row x cols lane = laneDot bits .Q6_K row x cols lane := by
  rw [gdotQ6KLane, iter_adds _ fun sb _ a => ?_, Arith.exact_zero, zero_add]
  · rfl
  · simp only [blkElems, blkBytes, Nat.reduceDiv]
    rw [sum_range_mul 2 4]
    apply iter_adds
    intro h _ a
    set W := off row (sb * 210) with hW
    have hterm : ∀ s < 4, blkValue (.exact bits) .Q6_K W ((h * 4 + s) * 32 + lane) =
        (Arith.exact bits).ofHalf (le16 W 208) * ((i8 (W (192 + h * 8 + (2 * s + lane / 16))) : ℤ) : K) *
          (((q6Weight W (h * 128 + s * 32 + lane)).toNat - 32 : ℤ) : K) := by
      intro s hs
      have he : (h * 4 + s) * 32 + lane = h * 128 + s * 32 + lane := by omega
      rw [he]
      simp only [blkValue, q6Scale_span W h hs hl, Arith.exact_mul, Arith.exact_ofInt]
    have hx : ∀ s, sb * 256 + ((h * 4 + s) * 32 + lane) = sb * 256 + (h * 128 + (lane + s * 32)) := by
      intro s
      omega
    rw [Finset.sum_range_succ, Finset.sum_range_succ, Finset.sum_range_succ, Finset.sum_range_one,
      hterm 0 (by omega), hterm 1 (by omega), hterm 2 (by omega), hterm 3 (by omega),
      q6Weight_span W h (s := 0) (by omega) hl, q6Weight_span W h (s := 1) (by omega) hl,
      q6Weight_span W h (s := 2) (by omega) hl, q6Weight_span W h (s := 3) (by omega) hl]
    simp only [hx]
    simp only [off_apply, Arith.exact_fma, Arith.exact_mul, Arith.exact_ofInt, Nat.zero_mul,
      Nat.mul_zero, Nat.add_zero, Nat.zero_add, Nat.reduceMul, Nat.add_comm (lane / 16),
      Nat.add_assoc]
    ring

/-! ### The codebooks -/

theorem toNat_kIqSignMask {j : ℕ} (hj : j < 8) : (kIqSignMask j).toNat = 2 ^ j := by
  revert j
  decide

/-- The canonical kernels test a bit of a sign pattern. -/
theorem signed_eq {F : Type} (A : Arith F) (s : UInt8) {j : ℕ} (hj : j < 8) (v : F) :
    signed A s j v = if s.toNat.testBit j then A.neg v else v := by
  have hmask : s &&& kIqSignMask j ≠ 0 ↔ s.toNat.testBit j = true := by
    rw [Ne, ← UInt8.toNat_inj, UInt8.toNat_and, toNat_kIqSignMask hj, Nat.and_two_pow]
    cases s.toNat.testBit j
    · simp
    · simp
  rw [signed]
  simp only [hmask]

/-- Those of the GPU test the same one. -/
theorem negateIf_eq {F : Type} (A : Arith F) (s : UInt8) {j : ℕ} (hj : j < 8) (v : F) :
    negateIf A s j v = signed A s j v := by
  have hshift : (UInt8.ofNat j).toNat % 8 = j := by
    rw [UInt8.toNat_ofNat']
    omega
  have hbit : (s >>> UInt8.ofNat j) &&& 1 ≠ 0 ↔ s.toNat.testBit j = true := by
    rw [Ne, ← UInt8.toNat_inj, UInt8.toNat_and, UInt8.toNat_shiftRight, hshift, Nat.testBit,
      bne_iff_ne, Nat.and_comm]
    rfl
  rw [signed_eq A s hj, negateIf]
  simp only [hbit]

theorem toNat_and_lt (u m : UInt32) : (u &&& m).toNat ≤ m.toNat := by
  rw [UInt32.toNat_and]
  exact Nat.and_le_right

theorem gdotIq2XxsLane_eq {g2 : ℕ → UInt64} {sgn : ℕ → UInt8} (hg : ∀ i < 256, g2 i = kIq2xxsGrid i)
    (hs : ∀ i < 128, sgn i = kIqSigns i) (row : ℕ → UInt8) (x : ℕ → K) (cols : ℕ) {lane : ℕ}
    (hl : lane < 32) :
    gdotIq2XxsLane (.exact bits) g2 sgn row x cols lane = laneDot bits .IQ2_XXS row x cols lane := by
  rw [gdotIq2XxsLane, iter_adds _ fun sb _ a => ?_, Arith.exact_zero, zero_add]
  · rfl
  · simp only [blkElems, blkBytes, Nat.reduceDiv]
    apply iter_adds
    intro ib _ a
    have h1 : (ib * 32 + lane) / 32 = ib := by omega
    have h2 : (ib * 32 + lane) % 32 / 8 = lane / 8 := by omega
    have h3 : (ib * 32 + lane) % 8 = lane % 8 := by omega
    have hgrid := fun u : UInt32 => hg (u &&& 0xFF).toNat (Nat.lt_succ_of_le (toNat_and_lt u 0xFF))
    have hsign := fun u : UInt32 => hs (u &&& 127).toNat (Nat.lt_succ_of_le (toNat_and_lt u 127))
    simp only [blkValue, h1, h2, h3, hgrid, hsign,
      negateIf_eq _ _ (Nat.mod_lt lane (show 0 < 8 by omega))]
    rw [Arith.exact_fma, add_comm, Nat.add_assoc (sb * 256)]
    rfl

theorem gdotIq3XxsLane_eq {g3 : ℕ → UInt32} {sgn : ℕ → UInt8} (hg : ∀ i < 256, g3 i = kIq3xxsGrid i)
    (hs : ∀ i < 128, sgn i = kIqSigns i) (row : ℕ → UInt8) (x : ℕ → K) (cols : ℕ) {lane : ℕ}
    (hl : lane < 32) :
    gdotIq3XxsLane (.exact bits) g3 sgn row x cols lane = laneDot bits .IQ3_XXS row x cols lane := by
  rw [gdotIq3XxsLane, iter_adds _ fun sb _ a => ?_, Arith.exact_zero, zero_add]
  · rfl
  · simp only [blkElems, blkBytes, Nat.reduceDiv]
    apply iter_adds
    intro ib _ a
    have h1 : (ib * 32 + lane) / 32 = ib := by omega
    have h2 : (ib * 32 + lane) % 32 / 8 = lane / 4 / 2 := by omega
    have h3 : (ib * 32 + lane) % 8 = 4 * (lane / 4 % 2) + lane % 4 := by omega
    have h4 : 2 + (ib * 32 + lane) / 4 = 2 + 8 * ib + lane / 4 := by omega
    have h5 : (ib * 32 + lane) % 4 = lane % 4 := by omega
    have hbit : 4 * (lane / 4 % 2) + lane % 4 < 8 := by omega
    have hgrid := fun b : UInt8 => hg b.toNat b.toNat_lt
    have hsign := fun u : UInt32 => hs (u &&& 127).toNat (Nat.lt_succ_of_le (toNat_and_lt u 127))
    simp only [blkValue, h1, h2, h3, h4, h5, hgrid, hsign, negateIf_eq _ _ hbit, iq3Word, u8Quad_eq,
      u16Pair_eq]
    rw [Arith.exact_fma, add_comm, Nat.add_assoc (sb * 256)]
    rfl

end
end FastLlm
