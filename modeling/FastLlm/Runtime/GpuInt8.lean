import FastLlm.Runtime.GpuFloat
import FastLlm.Runtime.NeonExact

/-!
# The GPU kernels for quantized activations

In exact arithmetic the lanes of a warp hold together what the canonical kernel computes for the row
and the dequantized activation.  A lane multiplies quads of weights with quads of activations; the
quads of all lanes are the elements of a block, so that the integer sums of the lanes are those of
the reference kernels.

## Main definitions

* `quadDot` — four products of signed bytes.
* `codebookByte` — the bytes whose sign can be changed in place.
-/

namespace FastLlm

open Cuda

/-! ## Sums over the lanes -/

section
variable {M : Type} [AddCommMonoid M]

/-- Lanes in `m` groups of `n`. -/
theorem sum_lane_groups (m : ℕ) {n : ℕ} (g : ℕ → ℕ → M) :
    ∑ l ∈ Finset.range (m * n), g (l / n) (l % n) =
      ∑ c ∈ Finset.range m, ∑ k ∈ Finset.range n, g c k := by
  rw [sum_range_mul]
  refine Finset.sum_congr rfl fun c _ => Finset.sum_congr rfl fun k hk => ?_
  have hk' := Finset.mem_range.mp hk
  rw [Nat.mul_comm, Nat.mul_add_div (by omega), Nat.div_eq_of_lt hk', Nat.add_zero,
    Nat.mul_add_mod, Nat.mod_eq_of_lt hk']

/-- Four groups of eight lanes. -/
theorem sum_warp (g : ℕ → ℕ → M) : ∑ l ∈ Finset.range 32, g (l / 8) (l % 8) =
    ∑ c ∈ Finset.range 4, ∑ k ∈ Finset.range 8, g c k :=
  sum_lane_groups 4 g

/-- Eight groups, two to each group of lanes. -/
theorem sum_warp_pairs (g : ℕ → ℕ → M) :
    ∑ l ∈ Finset.range 32, (g (2 * (l / 8)) (l % 8) + g (2 * (l / 8) + 1) (l % 8)) =
      ∑ c ∈ Finset.range 8, ∑ k ∈ Finset.range 8, g c k := by
  rw [sum_warp fun c k => g (2 * c) k + g (2 * c + 1) k, sum_range_mul 4 2]
  refine Finset.sum_congr rfl fun c _ => ?_
  rw [Finset.sum_range_succ _ 1, Finset.sum_range_one, Finset.sum_add_distrib, Nat.mul_comm c 2]
  rfl

/-- Four groups of lanes in two halves each. -/
theorem sum_warp_halves (g : ℕ → ℕ → M) : ∑ l ∈ Finset.range 32, g (l / 8) (l % 8) =
    ∑ c ∈ Finset.range 4, ∑ k ∈ Finset.range 2, ∑ q ∈ Finset.range 4, g c (k * 4 + q) := by
  rw [sum_warp]
  exact Finset.sum_congr rfl fun c _ => sum_range_mul 2 4 (g c)

/-- Groups of lanes that take every `G`-th block, the last round with the blocks that are left. -/
theorem sum_lanes_rounds {G : ℕ} (hG : 0 < G) (Q nb : ℕ) (T : ℕ → ℕ → M) :
    ∑ l ∈ Finset.range (G * Q), ∑ it ∈ Finset.range ((nb + G - 1) / G),
        (if G * it + l / Q < nb then T (G * it + l / Q) (l % Q) else 0) =
      ∑ b ∈ Finset.range nb, ∑ k ∈ Finset.range Q, T b k := by
  have hcover : nb ≤ (nb + G - 1) / G * G := by
    have h1 := Nat.div_add_mod (nb + G - 1) G
    have h2 := Nat.mod_lt (nb + G - 1) hG
    rw [Nat.mul_comm] at h1
    omega
  rw [sum_lane_groups G fun g k => ∑ it ∈ Finset.range ((nb + G - 1) / G),
      (if G * it + g < nb then T (G * it + g) k else 0),
    ← sum_range_extend hcover fun b => ∑ k ∈ Finset.range Q, T b k, sum_range_mul, Finset.sum_comm]
  rw [Finset.sum_congr rfl fun k _ => Finset.sum_comm, Finset.sum_comm]
  refine Finset.sum_congr rfl fun it _ => ?_
  rw [Finset.sum_comm]
  refine Finset.sum_congr rfl fun g _ => ?_
  rw [Nat.mul_comm]
  split_ifs
  · rfl
  · exact Finset.sum_const_zero

/-- Quads are what they consist of. -/
theorem sum_quads (n : ℕ) (g : ℕ → M) :
    ∑ k ∈ Finset.range n, ∑ j ∈ Finset.range 4, g (4 * k + j) =
      ∑ i ∈ Finset.range (n * 4), g i := by
  rw [sum_range_mul]
  simp only [Nat.mul_comm 4]

end

section
variable {K : Type} [Field K] (bits : UInt32 → K)

/-- The lanes hold what the blocks contribute to the canonical dot product. -/
theorem lanes_blocks (f : Fmt) (row : ℕ → UInt8) (x : ℕ → K) {cols : ℕ} (hc : blkElems f ∣ cols)
    {lane : ℕ → K} {T : ℕ → ℕ → K}
    (hlane : ∀ l < 32, lane l = ∑ b ∈ Finset.range (cols / blkElems f), T b l)
    (hblock : ∀ b < cols / blkElems f, ∑ l ∈ Finset.range 32, T b l =
      ∑ i ∈ Finset.range (blkElems f),
        blkValue (.exact bits) f (off row (b * blkBytes f)) i * x (b * blkElems f + i)) :
    ∑ l ∈ Finset.range 32, lane l = dotRowAny (.exact bits) f row x cols := by
  rw [dotRowAny_exact bits f row x hc, sum_value_blocks bits f row x hc,
    Finset.sum_congr rfl fun l hl => hlane l (Finset.mem_range.mp hl), Finset.sum_comm]
  exact Finset.sum_congr rfl fun b hb => hblock b (Finset.mem_range.mp hb)

/-- The same when `G` groups of `Q` lanes take the blocks in rounds. -/
theorem lanes_rounds (f : Fmt) (row : ℕ → UInt8) (x : ℕ → K) {cols : ℕ} (hc : blkElems f ∣ cols)
    {N G Q : ℕ} (hN : cols / blkElems f = N) (hG : 0 < G) (hGQ : G * Q = 32) {lane : ℕ → K}
    {T : ℕ → ℕ → K}
    (hlane : ∀ l, lane l = ∑ it ∈ Finset.range ((N + G - 1) / G),
      if G * it + l / Q < N then T (G * it + l / Q) (l % Q) else 0)
    (hblock : ∀ b, ∑ k ∈ Finset.range Q, T b k = ∑ i ∈ Finset.range (blkElems f),
      blkValue (.exact bits) f (off row (b * blkBytes f)) i * x (b * blkElems f + i)) :
    ∑ l ∈ Finset.range 32, lane l = dotRowAny (.exact bits) f row x cols := by
  rw [dotRowAny_exact bits f row x hc, sum_value_blocks bits f row x hc,
    Finset.sum_congr rfl fun l _ => hlane l, ← hGQ, sum_lanes_rounds hG, hN]
  exact Finset.sum_congr rfl fun b _ => hblock b

/-- A loop whose rounds add to what `φ` makes of the accumulators. -/
theorem iter_hom_adds {S : Type} (φ : S → K) {n : ℕ} {f : ℕ → S → S} {g : ℕ → K} (a : S)
    (h : ∀ i < n, ∀ a, φ (f i a) = φ a + g i) :
    φ (iter n a f) = φ a + ∑ i ∈ Finset.range n, g i := by
  rw [iter_hom φ (g := fun i s => s + g i) h, iter_sum]

theorem iter_total {S : Type} (φ : S → K) {n : ℕ} {f : ℕ → S → S} {g : ℕ → K} {a : S}
    (h0 : φ a = 0) (h : ∀ i < n, ∀ a, φ (f i a) = φ a + g i) :
    φ (iter n a f) = ∑ i ∈ Finset.range n, g i := by
  rw [iter_hom_adds φ a h, h0, zero_add]

/-- A term added to one of two accumulators. -/
theorem pair_fmaAt (a : ℕ → K) {k : ℕ} (hk : k < 2) (p v : K) :
    fmaAt (.exact bits) a k p v 0 + fmaAt (.exact bits) a k p v 1 = a 0 + a 1 + p * v := by
  rcases k with _ | _ | k
  · simp [fmaAt, Function.update]
    ring
  · simp [fmaAt, Function.update]
    ring
  · omega

end

/-! ## Quads -/

/-- Four products of signed bytes. -/
def quadDot (a b : ℕ → UInt8) (k : ℕ) : ℤ :=
  ∑ j ∈ Finset.range 4, i8 (a (4 * k + j)) * i8 (b (4 * k + j))

theorem sum_quadDot (n : ℕ) (a b : ℕ → UInt8) :
    ∑ k ∈ Finset.range n, quadDot a b k = ∑ i ∈ Finset.range (n * 4), i8 (a i) * i8 (b i) :=
  sum_quads n fun i => i8 (a i) * i8 (b i)

/-- Four quads are sixteen elements. -/
theorem sum_quadDot_sixteen (a b : ℕ → UInt8) (k : ℕ) :
    ∑ q ∈ Finset.range 4, quadDot a b (k * 4 + q) =
      ∑ i ∈ Finset.range 16, i8 (a (k * 16 + i)) * i8 (b (k * 16 + i)) := by
  have he : ∀ q j, 4 * (k * 4 + q) + j = k * 16 + (4 * q + j) := by
    intro q j
    omega
  simp only [quadDot, he]
  exact sum_quads 4 fun i => i8 (a (k * 16 + i)) * i8 (b (k * 16 + i))

/-- The sums of the quads. -/
theorem sum_quadDot_ones (n : ℕ) (x : ℕ → UInt8) :
    ∑ k ∈ Finset.range n, quadDot (fun _ => 1) x k = ∑ i ∈ Finset.range (n * 4), i8 (x i) := by
  simp only [sum_quadDot, i8_one, one_mul]

/-- A word of weights against a quad of activations. -/
theorem dp4a_quad {w : UInt32} {a : ℕ → UInt8} {k : ℕ} (hw : ∀ j < 4, byteOf w j = a (4 * k + j))
    (x : ℕ → UInt8) : dp4a w (quad x k) 0 = quadDot a x k := by
  rw [dp4a_zero]
  apply Finset.sum_congr rfl
  intro j hj
  have hj' := Finset.mem_range.mp hj
  rw [hw j hj', byteOf_quad x k hj']

/-- Two words, one after the other. -/
theorem dp4a_quads {w w' : UInt32} {a : ℕ → UInt8} {k l : ℕ}
    (hw : ∀ j < 4, byteOf w j = a (4 * k + j)) (hw' : ∀ j < 4, byteOf w' j = a (4 * l + j))
    (x : ℕ → UInt8) :
    dp4a w (quad x k) (dp4a w' (quad x l) 0) = quadDot a x l + quadDot a x k := by
  rw [dp4a_dp4a, ← dp4a_zero, ← dp4a_zero, dp4a_quad hw, dp4a_quad hw']

theorem dp4a_ones (x : ℕ → UInt8) (k : ℕ) :
    dp4a onesWord (quad x k) 0 = quadDot (fun _ => 1) x k :=
  dp4a_quad (fun _ hj => byteOf_ones hj) x

section
variable {K : Type} [Field K] (bits : UInt32 → K)

/-! ## Q8_0 and Q5_0 -/

theorem gdotI8Q80_lanes (row : ℕ → UInt8) (xq : ℕ → BlkQ81) {cols : ℕ} (hc : 32 ∣ cols) :
    ∑ lane ∈ Finset.range 32, gdotI8Q80Lane (.exact bits) row xq cols lane =
      dotRowAny (.exact bits) .Q8_0 row (deq81 (.exact bits) xq) cols := by
  apply lanes_rounds bits .Q8_0 row _ hc (N := cols / 32) (G := 4) (Q := 8) rfl (by omega) rfl
    (T := fun b k => (Arith.exact bits).ofHalf (le16 (off row (b * 34)) 0) *
      (Arith.exact bits).ofHalf (xq b).d *
      ((quadDot (off (off row (b * 34)) 2) (xq b).qs k : ℤ) : K))
  · intro l
    apply iter_total (fold4 (.exact bits)) (fold4_acc0 bits)
    intro it _ a
    dsimp only
    by_cases hb : 4 * it + l / 8 < cols / 32
    · rw [if_pos hb, if_pos hb, fold4_fmaAt bits a (Nat.mod_lt it (by omega)),
        dp4a_quad (a := off (off row ((4 * it + l / 8) * 34)) 2)]
      · rfl
      · intro j hj
        rw [byteOf_u16Pair _ _ hj, off_apply _ 2, Nat.add_assoc]
    · rw [if_neg hb, if_neg hb, add_zero]
  · intro b
    simp only [blkElems, blkBytes]
    rw [Finset.sum_congr rfl fun i hi =>
        congrArg (_ * ·) (deq81_block bits xq b (Finset.mem_range.mp hi)), q80_block,
      ← Finset.mul_sum, ← Int.cast_sum, sum_quadDot]
    rfl

theorem gdotI8Q50_lanes (row : ℕ → UInt8) (xq : ℕ → BlkQ81) {cols : ℕ} (hc : 32 ∣ cols) :
    ∑ lane ∈ Finset.range 32, gdotI8Q50Lane (.exact bits) row xq cols lane =
      dotRowAny (.exact bits) .Q5_0 row (deq81 (.exact bits) xq) cols := by
  let Z (b k : ℕ) : ℤ :=
    quadDot (q50Weight (off row (b * 22))) (xq b).qs k - 16 * quadDot (fun _ => 1) (xq b).qs k
  apply lanes_rounds bits .Q5_0 row _ hc (N := cols / 32) (G := 8) (Q := 4) rfl (by omega) rfl
    (T := fun b k => (Arith.exact bits).ofHalf (le16 (off row (b * 22)) 0) *
      (Arith.exact bits).ofHalf (xq b).d * ((Z b (4 + k) + Z b k : ℤ) : K))
  · intro l
    apply iter_total (fun a : ℕ → K => a 0 + a 1) (add_zero 0)
    intro it _ a
    dsimp only
    by_cases hb : 8 * it + l / 4 < cols / 32
    · have hk : l % 4 < 4 := Nat.mod_lt l (by omega)
      have hhi : ∀ j, 16 + (4 * (l % 4) + j) = 4 * (4 + l % 4) + j := by
        intro j
        omega
      have hw := dp4a_quads (a := q50Weight (off row ((8 * it + l / 4) * 22)))
        (fun j hj => byteOf_q50_lo _ hk hj)
        (fun j hj => (byteOf_q50_hi _ hk hj).trans (congrArg _ (hhi j)))
        (xq (8 * it + l / 4)).qs
      have hones := dp4a_quads (a := fun _ => 1) (k := l % 4) (l := 4 + l % 4)
        (fun _ hj => byteOf_ones hj) (fun _ hj => byteOf_ones hj) (xq (8 * it + l / 4)).qs
      rw [if_pos hb, if_pos hb, pair_fmaAt bits a (Nat.mod_lt it (by omega)), hw, hones]
      simp only [Z, Arith.exact_mul, Arith.exact_ofInt]
      congr 3
      ring
    · rw [if_neg hb, if_neg hb, add_zero]
  · intro b
    have hZ : ∑ k ∈ Finset.range 4, (Z b (4 + k) + Z b k) =
        ∑ i ∈ Finset.range 32, ((q50Weight (off row (b * 22)) i).toNat : ℤ) * i8 ((xq b).qs i) -
          16 * ∑ i ∈ Finset.range 32, i8 ((xq b).qs i) := by
      calc ∑ k ∈ Finset.range 4, (Z b (4 + k) + Z b k) = ∑ k ∈ Finset.range (4 + 4), Z b k := by
            rw [Finset.sum_range_add, Finset.sum_add_distrib, add_comm]
        _ = _ := by
            rw [Finset.sum_sub_distrib, ← Finset.mul_sum, sum_quadDot, sum_quadDot_ones]
            simp only [i8_q50Weight]
    simp only [blkElems, blkBytes]
    rw [Finset.sum_congr rfl fun i hi =>
        congrArg (_ * ·) (deq81_block bits xq b (Finset.mem_range.mp hi)), q50_block,
      ← Finset.mul_sum, ← Int.cast_sum, hZ]

/-! ## Q4_K -/

end

theorem byteOf_q4_lo (W : ℕ → UInt8) (c : ℕ) {k j : ℕ} (hj : j < 4) :
    byteOf (quad (off W 16) (c * 8 + k) &&& 0x0F0F0F0F) j = q4kNibble W (2 * c) (4 * k + j) := by
  have h1 : 16 + (4 * (c * 8 + k) + j) = 16 + c * 32 + (4 * k + j) := by omega
  have h2 : ¬ 2 * c % 2 = 1 := by omega
  have h3 : 2 * c / 2 = c := by omega
  rw [byteOf_lo _ hj, byteOf_quad _ _ hj, off_apply, h1]
  simp only [q4kNibble, h2, h3, if_false, off_apply]

theorem byteOf_q4_hi (W : ℕ → UInt8) (c : ℕ) {k j : ℕ} (hj : j < 4) :
    byteOf (sar (quad (off W 16) (c * 8 + k)) 4 &&& 0x0F0F0F0F) j =
      q4kNibble W (2 * c + 1) (4 * k + j) := by
  have h1 : 16 + (4 * (c * 8 + k) + j) = 16 + c * 32 + (4 * k + j) := by omega
  have h2 : (2 * c + 1) % 2 = 1 := by omega
  have h3 : (2 * c + 1) / 2 = c := by omega
  rw [byteOf_hi _ hj, byteOf_quad _ _ hj, off_apply, h1]
  simp only [q4kNibble, h2, h3, if_true, off_apply]

/-- The quads of a group of a Q4_K superblock. -/
theorem sum_quadDot_q4 (W : ℕ → UInt8) (g : ℕ) (x : ℕ → UInt8) :
    ∑ k ∈ Finset.range 8, quadDot (q4kNibble W g) x k =
      ∑ i ∈ Finset.range 32, ((q4kNibble W g i).toNat : ℤ) * i8 (x i) := by
  rw [sum_quadDot]
  simp only [i8_q4kNibble]

section
variable {K : Type} [Field K] (bits : UInt32 → K)

theorem gdotI8Q4KV1_lanes (row : ℕ → UInt8) (xq : ℕ → BlkQ81) {cols : ℕ} (hc : 256 ∣ cols) :
    ∑ lane ∈ Finset.range 32, gdotI8Q4KV1Lane (.exact bits) row xq cols lane =
      dotRowAny (.exact bits) .Q4_K row (deq81 (.exact bits) xq) cols := by
  -- what quad `k` of group `g` contributes
  let V (sb g k : ℕ) : K :=
    q4kA bits (off row (sb * 144)) g * (Arith.exact bits).ofHalf (xq (sb * 8 + g)).d *
        ((quadDot (q4kNibble (off row (sb * 144)) g) (xq (sb * 8 + g)).qs k : ℤ) : K) -
      q4kM bits (off row (sb * 144)) g * (Arith.exact bits).ofHalf (xq (sb * 8 + g)).d *
        ((quadDot (fun _ => 1) (xq (sb * 8 + g)).qs k : ℤ) : K)
  apply lanes_blocks bits .Q4_K row _ hc
    (T := fun sb l => V sb (2 * (l / 8)) (l % 8) + V sb (2 * (l / 8) + 1) (l % 8))
  · intro l _
    apply iter_total (fold4 (.exact bits)) (fold4_acc0 bits)
    intro sb _ a
    dsimp only
    rw [fold4_fmaAt bits _ (by omega), fold4_fmaAt bits _ (by omega),
      fold4_fmaAt bits _ (by omega), fold4_fmaAt bits _ (by omega),
      dp4a_quad fun j hj => byteOf_q4_lo _ _ hj, dp4a_quad fun j hj => byteOf_q4_hi _ _ hj,
      dp4a_ones, dp4a_ones]
    simp only [V, q4kA, q4kM, Arith.ofU8, Arith.exact_mul, Arith.exact_neg, Arith.exact_ofInt,
      Nat.add_assoc]
    ring
  · intro sb _
    simp only [blkElems, blkBytes]
    have hgroup : ∀ g, ∑ i ∈ Finset.range 32, blkValue (.exact bits) .Q4_K (off row (sb * 144))
        (g * 32 + i) * deq81 (.exact bits) xq (sb * 256 + (g * 32 + i)) =
          ∑ k ∈ Finset.range 8, V sb g k := by
      intro g
      rw [Finset.sum_congr rfl fun i hi =>
          congrArg (_ * ·) (deq81_group bits xq sb g (Finset.mem_range.mp hi)),
        q4_group bits _ g fun i => i8 ((xq (sb * 8 + g)).qs i), Finset.sum_sub_distrib,
        ← Finset.mul_sum, ← Finset.mul_sum, ← Int.cast_sum, ← Int.cast_sum, sum_quadDot_q4,
        sum_quadDot_ones]
    rw [sum_warp_pairs, sum_range_mul 8 32, Finset.sum_congr rfl fun g _ => hgroup g]

end

/-- The scaled dot of quad `k` of group `g`. -/
def q4Scaled {F : Type} (W : ℕ → UInt8) (b : BlkQ8K F) (g k : ℕ) : ℤ :=
  (q4kScale (off W 4) g).toNat * quadDot (q4kNibble W g) (off b.qs (g * 32)) k

/-- The min of group `g` against the sums of its activations. -/
def q4Mins {F : Type} (W : ℕ → UInt8) (b : BlkQ8K F) (g : ℕ) : ℤ :=
  (q4kMin (off W 4) g).toNat * (b.bsums (2 * g) + b.bsums (2 * g + 1))

theorem i8kQ4KInts_eq {F : Type} (W : ℕ → UInt8) (b : BlkQ8K F) (l : ℕ) :
    i8kQ4KInts W b l = (q4Scaled W b (2 * (l / 8)) (l % 8) + q4Scaled W b (2 * (l / 8) + 1) (l % 8),
      q4Mins W b (2 * (l / 8)) + q4Mins W b (2 * (l / 8) + 1)) := by
  have h1 : 2 * (2 * (l / 8)) = 4 * (l / 8) := by omega
  have h2 : 2 * (2 * (l / 8) + 1) = 4 * (l / 8) + 2 := by omega
  rw [i8kQ4KInts, dp4a_quad fun j hj => byteOf_q4_lo _ _ hj, dp4a_quad fun j hj => byteOf_q4_hi _ _ hj]
  simp only [q4Scaled, q4Mins, h1, h2]

section
variable {K : Type} [Field K] (bits : UInt32 → K)

/-- The lanes of a warp in a superblock: their scaled dots, and the mins of the first lanes. -/
theorem q4_superblock_lanes (W : ℕ → UInt8) {b : BlkQ8K K} (hb : b.SumsOk) :
    ∑ l ∈ Finset.range 32, ((Arith.exact bits).ofHalf (le16 W 0) * b.d *
        (((i8kQ4KInts W b l).1 : ℤ) : K) -
      if l % 8 = 0 then (Arith.exact bits).ofHalf (le16 W 2) * b.d *
        (((i8kQ4KInts W b l).2 : ℤ) : K) else 0) =
      ∑ i ∈ Finset.range 256,
        blkValue (.exact bits) .Q4_K W i * (b.d * ((i8 (b.qs i) : ℤ) : K)) := by
  set D := (Arith.exact bits).ofHalf (le16 W 0) * b.d with hD
  set E := (Arith.exact bits).ofHalf (le16 W 2) * b.d with hE
  let V (g k : ℕ) : K := D * ((q4Scaled W b g k : ℤ) : K) -
    if k = 0 then E * ((q4Mins W b g : ℤ) : K) else 0
  have hlane : ∀ l ∈ Finset.range 32, (D * (((i8kQ4KInts W b l).1 : ℤ) : K) -
      if l % 8 = 0 then E * (((i8kQ4KInts W b l).2 : ℤ) : K) else 0) =
        V (2 * (l / 8)) (l % 8) + V (2 * (l / 8) + 1) (l % 8) := by
    intro l _
    rw [i8kQ4KInts_eq]
    simp only [V]
    push_cast
    split_ifs
    · ring
    · ring
  have hgroup : ∀ g ∈ Finset.range 8, ∑ k ∈ Finset.range 8, V g k =
      ∑ i ∈ Finset.range 32,
        blkValue (.exact bits) .Q4_K W (g * 32 + i) * (b.d * ((i8 (b.qs (g * 32 + i)) : ℤ) : K)) := by
    intro g hg
    rw [q4_group_sums bits W hb (Finset.mem_range.mp hg), Finset.sum_sub_distrib,
      ← Finset.mul_sum, ← Int.cast_sum, Finset.sum_ite_eq' (Finset.range 8) 0,
      if_pos (Finset.mem_range.mpr (by omega))]
    simp only [q4Scaled, ← Finset.mul_sum, sum_quadDot_q4]
    rfl
  rw [Finset.sum_congr rfl hlane, sum_warp_pairs, Finset.sum_congr rfl hgroup]
  exact (sum_range_mul 8 32 fun i =>
    blkValue (.exact bits) .Q4_K W i * (b.d * ((i8 (b.qs i) : ℤ) : K))).symm

theorem gdotI8kQ4K_lanes (row : ℕ → UInt8) (xk : ℕ → BlkQ8K K) {cols : ℕ} (hc : 256 ∣ cols)
    (hk : ∀ b < cols / 256, (xk b).SumsOk) :
    ∑ lane ∈ Finset.range 32, gdotI8kQ4KLane (.exact bits) row xk cols lane =
      dotRowAny (.exact bits) .Q4_K row (deq8K (.exact bits) xk) cols := by
  let W (sb : ℕ) := off row (sb * 144)
  apply lanes_blocks bits .Q4_K row _ hc
    (T := fun sb l => (Arith.exact bits).ofHalf (le16 (W sb) 0) * (xk sb).d *
        (((i8kQ4KInts (W sb) (xk sb) l).1 : ℤ) : K) -
      if l % 8 = 0 then (Arith.exact bits).ofHalf (le16 (W sb) 2) * (xk sb).d *
        (((i8kQ4KInts (W sb) (xk sb) l).2 : ℤ) : K) else 0)
  · intro l _
    apply iter_total (fun a : K × K => a.1 + a.2) (add_zero 0)
    intro sb _ a
    simp only [i8kQ4KStep, W]
    split_ifs
    · simp only [Arith.exact_fma, Arith.exact_mul, Arith.exact_neg, Arith.exact_ofInt]
      ring
    · simp only [Arith.exact_fma, Arith.exact_mul, Arith.exact_ofInt]
      ring
  · intro sb hsb
    rw [q4_superblock_lanes bits (W sb) (hk sb hsb)]
    simp only [blkElems, blkBytes]
    rw [Finset.sum_congr rfl fun i hi =>
      congrArg (_ * ·) (deq8K_block bits xk sb (Finset.mem_range.mp hi))]

end

/-! ## Q6_K -/

/-- Four bits up, in every byte. -/
theorem byteOf_shiftLeft_4 {w : UInt32} (hw : ∀ j < 4, (byteOf w j).toNat < 16) {k : ℕ}
    (hk : k < 4) : byteOf (w <<< 4) k = byteOf w k <<< 4 := by
  have h0 := hw 0 (by omega)
  have h1 := hw 1 (by omega)
  have h2 := hw 2 (by omega)
  have h3 := hw 3 (by omega)
  have hbyte : (byteOf w k <<< 4).toNat = 16 * (byteOf w k).toNat := by
    have := hw k hk
    rw [UInt8.toNat_shiftLeft]
    change (byteOf w k).toNat <<< 4 % 256 = _
    rw [Nat.shiftLeft_eq]
    omega
  rw [← UInt8.toNat_inj, hbyte]
  apply toNat_byteOf_of_digits (d := fun j => 16 * (byteOf w j).toNat) _ _ hk
  · intro j hj
    have := hw j hj
    omega
  · rw [UInt32.toNat_shiftLeft]
    change w.toNat <<< 4 % 4294967296 = _
    rw [Nat.shiftLeft_eq, toNat_eq_bytes w]
    omega

theorem byteOf_q6Quad (W : ℕ → UInt8) (h : ℕ) {s : ℕ} (hs : s < 4) (k : ℕ) {j : ℕ} (hj : j < 4) :
    byteOf (q6Quad W h s k) j = q6Span W h s (4 * k + j) := by
  have hmask : ∀ i < 4, byteOf 0x03030303 i = 3 := fun i hi => byteOf_mask rfl hi
  have hhigh : ∀ i < 4, byteOf (sar (u16Pair W (128 + h * 32 + 4 * k)) (2 * s) &&& 0x03030303) i =
      (W (128 + h * 32 + (4 * k + i)) >>> UInt8.ofNat (2 * s)) &&& (3 : UInt8) := by
    intro i hi
    have hfit : (3 : UInt8).toNat < 2 ^ (8 - 2 * s) :=
      lt_of_lt_of_le (by decide) (Nat.pow_le_pow_right (by omega) (show 2 ≤ 8 - 2 * s by omega))
    rw [byteOf_and _ _ hi, hmask i hi, byteOf_sar_and _ hi (by omega) hfit, byteOf_u16Pair _ _ hi,
      Nat.add_assoc _ (4 * k)]
  have hsmall : ∀ i < 4,
      (byteOf (sar (u16Pair W (128 + h * 32 + 4 * k)) (2 * s) &&& 0x03030303) i).toNat < 16 := by
    intro i hi
    rw [hhigh i hi, UInt8.toNat_and]
    exact Nat.and_le_right.trans_lt (by decide)
  rw [q6Quad, byteOf_or _ _ hj, byteOf_shiftLeft_4 hsmall hj, hhigh j hj, q6Span]
  simp only [off_apply]
  congr 1
  split_ifs
  · rw [byteOf_lo _ hj, byteOf_u16Pair _ _ hj]
    simp only [Nat.add_assoc]
  · rw [byteOf_hi _ hj, byteOf_u16Pair _ _ hj]
    simp only [Nat.add_assoc]

/-- The quads of sixteen elements of a Q6_K superblock. -/
theorem sum_quadDot_q6 (W : ℕ → UInt8) (h s k : ℕ) (x : ℕ → UInt8) :
    ∑ q ∈ Finset.range 4, quadDot (q6Span W h s) x (k * 4 + q) =
      ∑ i ∈ Finset.range 16, ((q6Span W h s (k * 16 + i)).toNat : ℤ) * i8 (x (k * 16 + i)) := by
  rw [sum_quadDot_sixteen]
  simp only [i8_q6Span]

/-- The scale of a quad. -/
theorem q6_scale_index (h s : ℕ) {k q : ℕ} (hq : q < 4) :
    192 + (h * 8 + 2 * s + (k * 4 + q) / 4) = 192 + h * 8 + (2 * s + k) := by
  omega

/-- What quad `k` of span `s` of half `h` contributes to the integer of a q8_K superblock. -/
def q6Scaled {F : Type} (W : ℕ → UInt8) (b : BlkQ8K F) (h s k : ℕ) : ℤ :=
  i8 (W (192 + (h * 8 + 2 * s + k / 4))) * quadDot (q6Span W h s) (off b.qs ((h * 4 + s) * 32)) k -
    if k % 4 = 0 then
      i8 (W (192 + (h * 8 + 2 * s + k / 4))) * 32 * b.bsums (2 * (h * 4 + s) + k / 4)
    else 0

theorem sum_q6Scaled {F : Type} (W : ℕ → UInt8) (b : BlkQ8K F) (h s k : ℕ) :
    ∑ q ∈ Finset.range 4, q6Scaled W b h s (k * 4 + q) =
      i8 (W (192 + h * 8 + (2 * s + k))) *
        (∑ i ∈ Finset.range 16, ((q6Span W h s (k * 16 + i)).toNat : ℤ) *
            i8 (b.qs ((h * 4 + s) * 32 + (k * 16 + i))) -
          32 * b.bsums (2 * (h * 4 + s) + k)) := by
  have hq : ∀ q ∈ Finset.range 4, q6Scaled W b h s (k * 4 + q) =
      i8 (W (192 + h * 8 + (2 * s + k))) *
          quadDot (q6Span W h s) (off b.qs ((h * 4 + s) * 32)) (k * 4 + q) -
        if q = 0 then i8 (W (192 + h * 8 + (2 * s + k))) * 32 * b.bsums (2 * (h * 4 + s) + k)
        else 0 := by
    intro q hq
    have hq' := Finset.mem_range.mp hq
    have h1 : (k * 4 + q) / 4 = k := by omega
    have h2 : (k * 4 + q) % 4 = 0 ↔ q = 0 := by omega
    simp only [q6Scaled, h1, h2, Nat.add_assoc]
  rw [Finset.sum_congr rfl hq, Finset.sum_sub_distrib, ← Finset.mul_sum, sum_quadDot_q6,
    Finset.sum_ite_eq' (Finset.range 4) 0, if_pos (Finset.mem_range.mpr (by omega))]
  simp only [off_apply]
  ring

section
variable {K : Type} [Field K] (bits : UInt32 → K)

theorem gdotI8Q6K_lanes (row : ℕ → UInt8) (xq : ℕ → BlkQ81) {cols : ℕ} (hc : 256 ∣ cols) :
    ∑ lane ∈ Finset.range 32, gdotI8Q6KLane (.exact bits) row xq cols lane =
      dotRowAny (.exact bits) .Q6_K row (deq81 (.exact bits) xq) cols := by
  let W (sb : ℕ) := off row (sb * 210)
  -- what quad `k` of span `s` of half `h` contributes
  let V (sb h s k : ℕ) : K :=
    (Arith.exact bits).ofHalf (le16 (W sb) 208) * (Arith.exact bits).ofHalf (xq (sb * 8 + h * 4 + s)).d *
      ((i8 (W sb (192 + (h * 8 + 2 * s + k / 4))) *
        (quadDot (q6Span (W sb) h s) (xq (sb * 8 + h * 4 + s)).qs k -
          32 * quadDot (fun _ => 1) (xq (sb * 8 + h * 4 + s)).qs k) : ℤ) : K)
  apply lanes_blocks bits .Q6_K row _ hc
    (T := fun sb l => ∑ h ∈ Finset.range 2, V sb h (l / 8) (l % 8))
  · intro l hl
    have hs : l / 8 < 4 := by omega
    apply iter_total (fold4 (.exact bits)) (fold4_acc0 bits)
    intro sb _ a
    apply fold4_iter bits a
    intro h _ a
    rw [fold4_fmaAt bits a (Nat.mod_lt _ (by omega)), dp4a_quad fun j hj => byteOf_q6Quad _ h hs _ hj,
      dp4a_ones]
    rfl
  · intro sb _
    simp only [blkElems, blkBytes]
    rw [Finset.sum_comm, sum_range_mul 2 128]
    refine Finset.sum_congr rfl fun h _ => ?_
    rw [sum_warp_halves, sum_range_mul 4 32]
    refine Finset.sum_congr rfl fun s hs => ?_
    rw [sum_range_mul 2 16]
    refine Finset.sum_congr rfl fun k hk => ?_
    have hk' := Finset.mem_range.mp hk
    have hV : ∀ q ∈ Finset.range 4, V sb h s (k * 4 + q) =
        (Arith.exact bits).ofHalf (le16 (W sb) 208) *
          (Arith.exact bits).ofHalf (xq (sb * 8 + h * 4 + s)).d *
          ((i8 (W sb (192 + h * 8 + (2 * s + k))) *
            (quadDot (q6Span (W sb) h s) (xq (sb * 8 + h * 4 + s)).qs (k * 4 + q) -
              32 * quadDot (fun _ => 1) (xq (sb * 8 + h * 4 + s)).qs (k * 4 + q)) : ℤ) : K) := by
      intro q hq
      simp only [V, q6_scale_index h s (Finset.mem_range.mp hq)]
    rw [Finset.sum_congr rfl hV, Finset.sum_congr rfl fun i hi =>
        congrArg (_ * ·) (deq81_span bits xq sb h s hk' (Finset.mem_range.mp hi)),
      q6_group bits _ (Finset.mem_range.mp hs) hk' fun i =>
        i8 ((xq (sb * 8 + h * 4 + s)).qs (k * 16 + i)),
      ← Finset.mul_sum, ← Int.cast_sum, ← Finset.mul_sum, Finset.sum_sub_distrib, ← Finset.mul_sum,
      sum_quadDot_q6, sum_quadDot_sixteen]
    simp only [i8_one, one_mul]
    rfl

theorem gdotI8kQ6K_lanes (row : ℕ → UInt8) (xk : ℕ → BlkQ8K K) {cols : ℕ} (hc : 256 ∣ cols)
    (hk : ∀ b < cols / 256, (xk b).SumsOk) :
    ∑ lane ∈ Finset.range 32, gdotI8kQ6KLane (.exact bits) row xk cols lane =
      dotRowAny (.exact bits) .Q6_K row (deq8K (.exact bits) xk) cols := by
  let W (sb : ℕ) := off row (sb * 210)
  apply lanes_blocks bits .Q6_K row _ hc
    (T := fun sb l => ∑ h ∈ Finset.range 2, (Arith.exact bits).ofHalf (le16 (W sb) 208) *
      (xk sb).d * ((q6Scaled (W sb) (xk sb) h (l / 8) (l % 8) : ℤ) : K))
  · intro l hl
    have hs : l / 8 < 4 := by omega
    apply iter_total (fun a : K => a) rfl
    intro sb _ a
    dsimp only
    rw [iter_congr (g := fun h isb => isb + q6Scaled (W sb) (xk sb) h (l / 8) (l % 8)), iter_sum,
      zero_add, Arith.exact_fma, add_comm, ← Finset.mul_sum, ← Int.cast_sum]
    · rfl
    · intro h _ isb
      rw [dp4a_quad fun j hj => byteOf_q6Quad _ h hs _ hj, q6Scaled]
      split_ifs
      · rfl
      · rw [sub_zero]
  · intro sb hsb
    simp only [blkElems, blkBytes]
    rw [Finset.sum_comm, sum_range_mul 2 128]
    refine Finset.sum_congr rfl fun h hh => ?_
    rw [sum_warp_halves fun s k => (Arith.exact bits).ofHalf (le16 (W sb) 208) * (xk sb).d *
      ((q6Scaled (W sb) (xk sb) h s k : ℤ) : K), sum_range_mul 4 32]
    refine Finset.sum_congr rfl fun s hs => ?_
    rw [sum_range_mul 2 16]
    refine Finset.sum_congr rfl fun k hk' => ?_
    have hh' := Finset.mem_range.mp hh
    have hs' := Finset.mem_range.mp hs
    have hk'' := Finset.mem_range.mp hk'
    rw [Finset.sum_congr rfl fun i hi =>
        congrArg (_ * ·) (deq8K_group bits xk sb hh' hs' hk'' (Finset.mem_range.mp hi)),
      q6_group_sums bits _ (hk sb hsb) hh' hs' hk'', ← Finset.mul_sum, ← Int.cast_sum,
      sum_q6Scaled]

/-- The kernel for several columns is, for each of them, the kernel for one. -/
theorem gdotI8kQ4KMcLane_eq {F : Type} (A : Arith F) (row : ℕ → UInt8) (xk : ℕ → ℕ → BlkQ8K F)
    (cols p0 : ℕ) {pc pp : ℕ} (hp : pp < pc) (lane : ℕ) :
    A.add (gdotI8kQ4KMcLane A row xk cols p0 pc lane pp).1
        (gdotI8kQ4KMcLane A row xk cols p0 pc lane pp).2 =
      gdotI8kQ4KLane A row (xk (p0 + pp)) cols lane := by
  have hcol : gdotI8kQ4KMcLane A row xk cols p0 pc lane pp =
      iter (cols / 256) (A.zero, A.zero) fun sb a =>
        i8kQ4KStep A (off row (sb * 144)) (xk (p0 + pp) sb) lane a := by
    apply iter_hom fun a : ℕ → F × F => a pp
    intro sb _ a
    rw [iter_modify pc a fun pp b => i8kQ4KStep A (off row (sb * 144)) (xk (p0 + pp) sb) lane b,
      if_pos hp]
  rw [hcol, gdotI8kQ4KLane]

end
/-! ## The codebooks -/

/-- A byte that fits a signed one with either sign, and is not zero. -/
def codebookByte (b : UInt8) : Bool := 1 ≤ b.toNat && b.toNat ≤ 127

theorem grid2_range {g : UInt64} (hg : g ∈ kIq2xxsGridTable) {j : ℕ} (hj : j < 8) :
    1 ≤ (gridByte2 g j).toNat ∧ (gridByte2 g j).toNat ≤ 127 := by
  have hall : (kIq2xxsGridTable.all fun g =>
      (List.range 8).all fun j => codebookByte (gridByte2 g j)) = true := by
    decide +kernel
  have hbyte := List.all_eq_true.mp (List.all_eq_true.mp hall g hg) j (List.mem_range.mpr hj)
  simpa [codebookByte] using hbyte

theorem grid3_range {g : UInt32} (hg : g ∈ kIq3xxsGridTable) {j : ℕ} (hj : j < 4) :
    1 ≤ (gridByte3 g j).toNat ∧ (gridByte3 g j).toNat ≤ 127 := by
  have hall : (kIq3xxsGridTable.all fun g =>
      (List.range 4).all fun j => codebookByte (gridByte3 g j)) = true := by
    decide +kernel
  have hbyte := List.all_eq_true.mp (List.all_eq_true.mp hall g hg) j (List.mem_range.mpr hj)
  simpa [codebookByte] using hbyte

theorem kIq2xxsGrid_mem {i : ℕ} (hi : i < 256) : kIq2xxsGrid i ∈ kIq2xxsGridTable := by
  have hlen : kIq2xxsGridTable.length = 256 := by decide +kernel
  rw [kIq2xxsGrid, List.getD_eq_getElem _ _ (hlen ▸ hi)]
  exact List.getElem_mem _

theorem kIq3xxsGrid_mem {i : ℕ} (hi : i < 256) : kIq3xxsGrid i ∈ kIq3xxsGridTable := by
  have hlen : kIq3xxsGridTable.length = 256 := by decide +kernel
  rw [kIq3xxsGrid, List.getD_eq_getElem _ _ (hlen ▸ hi)]
  exact List.getElem_mem _

/-- Half `sel` of an entry of the IQ2_XXS grid as a word. -/
theorem byteOf_gridHalf (g : UInt64) {sel j : ℕ} (hsel : sel < 2) (hj : j < 4) :
    byteOf (if sel ≠ 0 then g >>> 32 else g).toUInt32 j = gridByte2 g (4 * sel + j) := by
  have hshift : (UInt64.ofNat (8 * (4 * sel + j))).toNat % 64 = 8 * (4 * sel + j) := by
    rw [UInt64.toNat_ofNat']
    omega
  have hword : (if sel ≠ 0 then g >>> 32 else g).toNat = g.toNat / 2 ^ (32 * sel) := by
    rcases sel with _ | _ | sel
    · simp
    · rw [if_pos (by omega), UInt64.toNat_shiftRight, Nat.shiftRight_eq_div_pow]
      rfl
    · omega
  rw [← UInt8.toNat_inj, toNat_byteOf _ hj, UInt64.toNat_toUInt32, hword, gridByte2,
    UInt64.toNat_toUInt8, UInt64.toNat_shiftRight, hshift, Nat.shiftRight_eq_div_pow]
  apply Nat.eq_of_testBit_eq
  intro i
  change (_ / 2 ^ (8 * j) % 2 ^ 8).testBit i = _
  simp only [Nat.testBit_mod_two_pow, Nat.testBit_div_two_pow]
  by_cases hi : i < 8
  · have h1 : i + 8 * j < 32 := by omega
    have h2 : i + 8 * j + 32 * sel = i + 8 * (4 * sel + j) := by omega
    simp only [hi, h1, h2, decide_true, Bool.true_and]
  · simp only [hi, decide_false, Bool.false_and]

/-- The sign bits of a quad as masks. -/
theorem byteOf_signMask4 (s : UInt8) {sh j : ℕ} (hsh : sh ≤ 4) (hj : j < 4) :
    byteOf (signMask4 s.toUInt32 sh) j = if s.toNat.testBit (sh + j) then 0xFF else 0 := by
  have hall : ∀ n < 16, ∀ k < 4, byteOf (((UInt32.ofNat n * 0x00204081) &&& 0x01010101) * 0xFF) k =
      if n.testBit k then 0xFF else 0 := by
    decide
  have hshift : (UInt32.ofNat sh).toNat % 32 = sh := by
    rw [UInt32.toNat_ofNat']
    omega
  have hlow : (s.toUInt32 >>> UInt32.ofNat sh) &&& 0xF = UInt32.ofNat (s.toNat >>> sh % 16) := by
    rw [← UInt32.toNat_inj, UInt32.toNat_and, UInt32.toNat_shiftRight, hshift,
      UInt8.toNat_toUInt32, UInt32.toNat_ofNat_of_lt']
    · exact Nat.and_two_pow_sub_one_eq_mod _ 4
    · change _ < 4294967296
      omega
  rw [signMask4, hlow, hall _ (Nat.mod_lt _ (by omega)) j hj]
  change (if (s.toNat >>> sh % 2 ^ 4).testBit j then _ else _) = _
  rw [Nat.testBit_mod_two_pow, Nat.testBit_shiftRight]
  simp [hj]

/-- A quad with signs applied in place. -/
theorem i8_byteOf_negQuad {vq : UInt32} (hv : ∀ j < 4, 1 ≤ (byteOf vq j).toNat ∧
    (byteOf vq j).toNat ≤ 127) (s : UInt8) {sh j : ℕ} (hsh : sh ≤ 4) (hj : j < 4) :
    i8 (byteOf (negQuad vq (signMask4 s.toUInt32 sh)) j) =
      if s.toNat.testBit (sh + j) then -((byteOf vq j).toNat : ℤ) else (byteOf vq j).toNat := by
  have hxor : ∀ i < 4, (byteOf (vq ^^^ signMask4 s.toUInt32 sh) i).toNat =
      if s.toNat.testBit (sh + i) then 255 - (byteOf vq i).toNat else (byteOf vq i).toNat := by
    intro i hi
    rw [byteOf_xor _ _ hi, byteOf_signMask4 s hsh hi]
    split_ifs
    · have hflip : ∀ n < 256, (UInt8.ofNat n ^^^ 0xFF).toNat = 255 - n := by decide +kernel
      have h1 := hflip (byteOf vq i).toNat (UInt8.toNat_lt _)
      rwa [UInt8.ofNat_toNat] at h1
    · rw [UInt8.xor_zero]
  have hone : ∀ i < 4, (byteOf (signMask4 s.toUInt32 sh &&& onesWord) i).toNat =
      if s.toNat.testBit (sh + i) then 1 else 0 := by
    intro i hi
    rw [byteOf_and _ _ hi, byteOf_signMask4 s hsh hi, byteOf_ones hi]
    split_ifs
    · rfl
    · rfl
  have hadd := toNat_byteOf_add (w := vq ^^^ signMask4 s.toUInt32 sh)
    (u := signMask4 s.toUInt32 sh &&& onesWord) (fun i hi => ?_) hj
  · have h1 := hv j hj
    rw [hxor j hj, hone j hj] at hadd
    rw [negQuad, i8, hadd]
    split_ifs
    · omega
    · omega
    · omega
    · omega
  · have h1 := hv i hi
    rw [hxor i hi, hone i hi]
    split_ifs
    · omega
    · omega

section
variable {K : Type} [Field K] (bits : UInt32 → K)

/-- A quad of a codebook with signs against four activations. -/
theorem sum_quad_signed {vq : UInt32} (hv : ∀ j < 4, 1 ≤ (byteOf vq j).toNat ∧
    (byteOf vq j).toNat ≤ 127) (s : UInt8) {sh : ℕ} (hsh : sh ≤ 4) (x : ℕ → UInt8) (k : ℕ)
    (db dx : K) :
    ∑ j ∈ Finset.range 4, db * signed (.exact bits) s (sh + j)
        ((Arith.exact bits).ofU8 (byteOf vq j)) * (dx * ((i8 (x (4 * k + j)) : ℤ) : K)) =
      db * dx * ((dp4a (negQuad vq (signMask4 s.toUInt32 sh)) (quad x k) 0 : ℤ) : K) := by
  rw [dp4a_zero, Int.cast_sum, Finset.mul_sum]
  apply Finset.sum_congr rfl
  intro j hj
  have hj' := Finset.mem_range.mp hj
  rw [i8_byteOf_negQuad hv s hsh hj', byteOf_quad x k hj', signed_eq _ s (by omega)]
  split_ifs
  · simp only [Arith.ofU8, Arith.exact_neg, Arith.exact_ofInt]
    push_cast
    ring
  · simp only [Arith.ofU8, Arith.exact_ofInt]
    push_cast
    ring

/-- Two halves of four groups of 32 weights each, in quads. -/
theorem sum_codebook_block (g : ℕ → K) {V : ℕ → ℕ → K}
    (hV : ∀ ib < 8, ∀ k < 8, V ib k = ∑ j ∈ Finset.range 4, g (ib * 32 + (4 * k + j))) :
    ∑ l ∈ Finset.range 32, ∑ half ∈ Finset.range 2, V (half * 4 + l / 8) (l % 8) =
      ∑ i ∈ Finset.range 256, g i := by
  have hib : ∀ ib ∈ Finset.range 8,
      ∑ k ∈ Finset.range 8, V ib k = ∑ i ∈ Finset.range 32, g (ib * 32 + i) := by
    intro ib hib
    rw [Finset.sum_congr rfl fun k hk => hV ib (Finset.mem_range.mp hib) k (Finset.mem_range.mp hk)]
    exact sum_quads 8 fun i => g (ib * 32 + i)
  rw [Finset.sum_comm, sum_range_mul 8 32, ← Finset.sum_congr rfl hib, sum_range_mul 2 4]
  refine Finset.sum_congr rfl fun half _ => ?_
  exact sum_warp fun c k => V (half * 4 + c) k

theorem gdotI8Iq2Xxs_lanes {g2 : ℕ → UInt64} {sgn : ℕ → UInt8}
    (hg : ∀ i < 256, g2 i = kIq2xxsGrid i) (hs : ∀ i < 128, sgn i = kIqSigns i)
    (row : ℕ → UInt8) (xq : ℕ → BlkQ81) {cols : ℕ} (hc : 256 ∣ cols) :
    ∑ lane ∈ Finset.range 32, gdotI8Iq2XxsLane (.exact bits) g2 sgn row xq cols lane =
      dotRowAny (.exact bits) .IQ2_XXS row (deq81 (.exact bits) xq) cols := by
  let W (sb : ℕ) := off row (sb * 66)
  let w0 (sb ib : ℕ) := u16Pair (W sb) (2 + 8 * ib)
  let w1 (sb ib : ℕ) := u16Pair (W sb) (2 + 8 * ib + 4)
  let vq (sb ib k : ℕ) := (if k % 2 ≠ 0 then iq2Entry (w0 sb ib) (k / 2) >>> 32
    else iq2Entry (w0 sb ib) (k / 2)).toUInt32
  -- what quad `k` of group `ib` contributes
  let V (sb ib k : ℕ) : K :=
    iqScale (.exact bits) ((Arith.exact bits).ofHalf (le16 (W sb) 0)) (w1 sb ib)
        (Arith.exact bits).quarter * (Arith.exact bits).ofHalf (xq (sb * 8 + ib)).d *
      ((dp4a (negQuad (vq sb ib k) (signMask4 (iqSigns (w1 sb ib) (k / 2)).toUInt32 (4 * (k % 2))))
        (quad (xq (sb * 8 + ib)).qs k) 0 : ℤ) : K)
  apply lanes_blocks bits .IQ2_XXS row _ hc
    (T := fun sb l => ∑ half ∈ Finset.range 2, V sb (half * 4 + l / 8) (l % 8))
  · intro l hl
    apply iter_total (fun a : ℕ → K => a 0 + a 1) (add_zero 0)
    intro sb _ a
    apply iter_hom_adds (fun a : ℕ → K => a 0 + a 1)
    intro half hhalf a
    rw [pair_fmaAt bits a hhalf, hg _ (Nat.lt_succ_of_le (toNat_and_lt _ 0xFF)),
      hs _ (Nat.lt_succ_of_le (toNat_and_lt _ 127))]
    rfl
  · intro sb _
    simp only [blkElems, blkBytes]
    apply sum_codebook_block fun i => blkValue (.exact bits) .IQ2_XXS (W sb) i *
      deq81 (.exact bits) xq (sb * 256 + i)
    intro ib hib k hk
    have hbytes : ∀ j < 4, byteOf (vq sb ib k) j =
        gridByte2 (iq2Entry (w0 sb ib) (k / 2)) (4 * (k % 2) + j) :=
      fun j hj => byteOf_gridHalf _ (Nat.mod_lt k (by omega)) hj
    have hrange : ∀ j < 4, 1 ≤ (byteOf (vq sb ib k) j).toNat ∧
        (byteOf (vq sb ib k) j).toNat ≤ 127 := by
      intro j hj
      rw [hbytes j hj]
      exact grid2_range (kIq2xxsGrid_mem (Nat.lt_succ_of_le (toNat_and_lt _ 0xFF))) (by omega)
    simp only [V]
    rw [← sum_quad_signed bits hrange _ (by omega)]
    apply Finset.sum_congr rfl
    intro j hj
    have hj' := Finset.mem_range.mp hj
    have h1 : (ib * 32 + (4 * k + j)) / 32 = ib := by omega
    have h2 : (ib * 32 + (4 * k + j)) % 32 / 8 = k / 2 := by omega
    have h3 : (ib * 32 + (4 * k + j)) % 8 = 4 * (k % 2) + j := by omega
    rw [deq81_group bits xq sb ib (by omega), hbytes j hj']
    simp only [blkValue, h1, h2, h3]
    rfl

theorem gdotI8Iq3Xxs_lanes {g3 : ℕ → UInt32} {sgn : ℕ → UInt8}
    (hg : ∀ i < 256, g3 i = kIq3xxsGrid i) (hs : ∀ i < 128, sgn i = kIqSigns i)
    (row : ℕ → UInt8) (xq : ℕ → BlkQ81) {cols : ℕ} (hc : 256 ∣ cols) :
    ∑ lane ∈ Finset.range 32, gdotI8Iq3XxsLane (.exact bits) g3 sgn row xq cols lane =
      dotRowAny (.exact bits) .IQ3_XXS row (deq81 (.exact bits) xq) cols := by
  let W (sb : ℕ) := off row (sb * 98)
  let vq (sb ib k : ℕ) := kIq3xxsGrid (W sb (2 + (8 * ib + k))).toNat
  -- what quad `k` of group `ib` contributes
  let V (sb ib k : ℕ) : K :=
    iqScale (.exact bits) ((Arith.exact bits).ofHalf (le16 (W sb) 0)) (iq3Word (W sb) ib)
        (Arith.exact bits).half * (Arith.exact bits).ofHalf (xq (sb * 8 + ib)).d *
      ((dp4a (negQuad (vq sb ib k)
          (signMask4 (iqSigns (iq3Word (W sb) ib) (k / 2)).toUInt32 (4 * (k % 2))))
        (quad (xq (sb * 8 + ib)).qs k) 0 : ℤ) : K)
  apply lanes_blocks bits .IQ3_XXS row _ hc
    (T := fun sb l => ∑ half ∈ Finset.range 2, V sb (half * 4 + l / 8) (l % 8))
  · intro l hl
    apply iter_total (fun a : ℕ → K => a 0 + a 1) (add_zero 0)
    intro sb _ a
    apply iter_hom_adds (fun a : ℕ → K => a 0 + a 1)
    intro half hhalf a
    have hword : u16Pair (off (W sb) (2 + 64)) (4 * (half * 4 + l / 8)) =
        iq3Word (W sb) (half * 4 + l / 8) := by
      rw [iq3Word, u8Quad_eq, u16Pair_eq]
      simp only [le32, off_apply, Nat.add_assoc]
    rw [pair_fmaAt bits a hhalf, hg _ (UInt8.toNat_lt _),
      hs _ (Nat.lt_succ_of_le (toNat_and_lt _ 127)), hword]
    rfl
  · intro sb _
    simp only [blkElems, blkBytes]
    apply sum_codebook_block fun i => blkValue (.exact bits) .IQ3_XXS (W sb) i *
      deq81 (.exact bits) xq (sb * 256 + i)
    intro ib hib k hk
    have hrange : ∀ j < 4, 1 ≤ (byteOf (vq sb ib k) j).toNat ∧
        (byteOf (vq sb ib k) j).toNat ≤ 127 :=
      fun j hj => grid3_range (kIq3xxsGrid_mem (UInt8.toNat_lt _)) hj
    simp only [V]
    rw [← sum_quad_signed bits hrange _ (by omega)]
    apply Finset.sum_congr rfl
    intro j hj
    have hj' := Finset.mem_range.mp hj
    have h1 : (ib * 32 + (4 * k + j)) / 32 = ib := by omega
    have h2 : (ib * 32 + (4 * k + j)) % 32 / 8 = k / 2 := by omega
    have h3 : (ib * 32 + (4 * k + j)) % 8 = 4 * (k % 2) + j := by omega
    have h4 : (ib * 32 + (4 * k + j)) / 4 = 8 * ib + k := by omega
    have h5 : (ib * 32 + (4 * k + j)) % 4 = j := by omega
    rw [deq81_group bits xq sb ib (by omega)]
    simp only [blkValue, h1, h2, h3, h4, h5]
    rfl

end
end FastLlm
