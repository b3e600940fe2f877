import FastLlm.Runtime.NeonDot

/-!
# The NEON kernels are the reference dots

Every NEON kernel gives the float of its scalar reference, for any interpretation of the float
operations (`neon_eq_reference`).  The integers agree because the vector instructions compute exact
sums and the unpacking finds the same weights; the floats because the terms go to the same
accumulators in the same order.  A kernel for several columns is, seen from one column, the kernel
for that column.

## Main definitions

* `vdot32` — two accumulating products are the sum over thirty-two elements.
* `interleave_at` — where the interleaved activations lie.
-/

namespace FastLlm

open Neon

/-! ## Integers -/

theorem byteDot_isum (n : ℕ) (a b : ℕ → UInt8) :
    byteDot n a b = isum n fun i => i8 (a i) * i8 (b i) := by
  rw [isum_eq, byteDot]

/-- Thirty-two products from two registers each. -/
theorem vdot32 (w x : ℕ → UInt8) :
    vaddvqS32 (vdotqS32 (vdotqS32 (vdupqNS32 0) w x) (off w 16) (off x 16)) =
      isum 32 fun i => i8 (w i) * i8 (x i) := by
  rw [vaddvq_vdotq_vdotq, ← byteDot_isum, byteDot_add 16 16 w x]
  rfl

theorem i8_one : i8 1 = 1 := by decide

/-- Products with ones are a sum. -/
theorem vdot32_ones (x : ℕ → UInt8) :
    vaddvqS32 (vdotqS32 (vdotqS32 (vdupqNS32 0) (vdupqN8 1) x) (vdupqN8 1) (off x 16)) =
      isum 32 fun i => i8 (x i) := by
  have h := vdot32 (vdupqN8 1) x
  simp only [vdupqN8, i8_one, one_mul] at h ⊢
  exact h

theorem vdot16_ones (x : ℕ → UInt8) :
    vaddvqS32 (vdotqS32 (vdupqNS32 0) (vdupqN8 1) x) = isum 16 fun i => i8 (x i) := by
  rw [vaddvq_vdotq, byteDot_isum]
  simp only [vdupqN8, i8_one, one_mul]

theorem i8_q4kNibble (W : ℕ → UInt8) (g i : ℕ) :
    i8 (q4kNibble W g i) = (q4kNibble W g i).toNat := by
  have hlt : (q4kNibble W g i).toNat < 128 := by
    rw [q4kNibble]
    split_ifs
    · rw [toNat_shiftRight_4]
      have := (off W (16 + g / 2 * 32) i).toNat_lt
      omega
    · rw [toNat_and_15]
      omega
  rw [i8, if_pos hlt]

/-- The nibbles of a group, in a register. -/
theorem nibbles_eq (W : ℕ → UInt8) (g k : ℕ) :
    (if g % 2 = 1 then vshrqNU8 (off (off W (16 + g / 2 * 32)) k) 4
      else vandqU8 (off (off W (16 + g / 2 * 32)) k) (vdupqN8 0x0F)) = off (q4kNibble W g) k := by
  funext i
  simp only [off_apply, q4kNibble]
  split_ifs
  · rfl
  · rfl

/-- Group `g` of a Q4_K superblock against 32 activations. -/
theorem q4_vdot (W : ℕ → UInt8) (g : ℕ) (x : ℕ → UInt8) :
    vaddvqS32 (vdotqS32 (vdotqS32 (vdupqNS32 0)
      (if g % 2 = 1 then vshrqNU8 (off W (16 + g / 2 * 32)) 4
        else vandqU8 (off W (16 + g / 2 * 32)) (vdupqN8 0x0F)) x)
      (if g % 2 = 1 then vshrqNU8 (off (off W (16 + g / 2 * 32)) 16) 4
        else vandqU8 (off (off W (16 + g / 2 * 32)) 16) (vdupqN8 0x0F)) (off x 16)) =
      isum 32 fun i => (q4kNibble W g i).toNat * i8 (x i) := by
  have h0 := nibbles_eq W g 0
  rw [off_zero, off_zero] at h0
  rw [h0, nibbles_eq, vdot32]
  simp only [i8_q4kNibble]

/-- The chunk of two groups of a Q4_K superblock. -/
theorem q4Chunk_eq (W xa xb : ℕ → UInt8) (c : ℕ) :
    q4Chunk (off W (16 + c * 32)) xa xb =
      (isum 32 fun i => (q4kNibble W (2 * c) i).toNat * i8 (xa i),
        isum 32 fun i => (q4kNibble W (2 * c + 1) i).toNat * i8 (xb i)) := by
  have hlo := q4_vdot W (2 * c) xa
  have hhi := q4_vdot W (2 * c + 1) xb
  have h1 : ¬ 2 * c % 2 = 1 := by omega
  have h2 : 2 * c / 2 = c := by omega
  have h3 : (2 * c + 1) % 2 = 1 := by omega
  have h4 : (2 * c + 1) / 2 = c := by omega
  simp only [h1, h2, if_false] at hlo
  simp only [h3, h4, if_true] at hhi
  exact Prod.ext hlo hhi

theorem shiftRight_6_and_3 (b : UInt8) : b >>> 6 &&& (3 : UInt8) = b >>> 6 := by
  rw [← UInt8.toNat_inj, UInt8.toNat_and, UInt8.toNat_shiftRight]
  have := b.toNat_lt
  change b.toNat >>> 6 &&& 2 ^ 2 - 1 = b.toNat >>> 6
  rw [Nat.and_two_pow_sub_one_eq_mod, Nat.shiftRight_eq_div_pow]
  omega

/-- The unpacked weights are those of the reference. -/
theorem q6Unpack_eq (W : ℕ → UInt8) (h : ℕ) {s : ℕ} (hs : s < 4) (k16 : ℕ) :
    q6Unpack (off W (h * 64)) (off W (128 + h * 32)) s k16 = off (q6Span W h s) (k16 * 16) := by
  funext i
  rcases s with _ | _ | _ | _ | s
  · simp [q6Unpack, q6Span, vorrqU8, vandqU8, vshlqNU8, vdupqN8, vld1q]
  · simp [q6Unpack, q6Span, vorrqU8, vandqU8, vshlqNU8, vshrqNU8, vdupqN8, vld1q, Nat.add_assoc]
  · simp [q6Unpack, q6Span, vorrqU8, vandqU8, vshlqNU8, vshrqNU8, vdupqN8, vld1q]
  · have h6 := shiftRight_6_and_3 (W (128 + (h * 32 + (k16 * 16 + i))))
    simp [q6Unpack, q6Span, vorrqU8, vshlqNU8, vshrqNU8, vld1q, Nat.add_assoc, h6]
  · omega

theorem i8_q6Span (W : ℕ → UInt8) (h s e : ℕ) :
    i8 (q6Span W h s e) = (q6Span W h s e).toNat := by
  have hlt : (q6Span W h s e).toNat < 2 ^ 6 := by
    rw [q6Span, UInt8.toNat_or]
    apply Nat.or_lt_two_pow
    · split_ifs
      · rw [toNat_and_15]
        omega
      · rw [toNat_shiftRight_4]
        have := (off W (h * 64) (s % 2 * 32 + e)).toNat_lt
        omega
    · set b := off W (128 + h * 32) e >>> UInt8.ofNat (2 * s)
      have hb : (b &&& 3).toNat < 4 := by
        rw [UInt8.toNat_and]
        exact Nat.and_lt_two_pow (n := 2) _ (by decide)
      rw [UInt8.toNat_shiftLeft]
      change (b &&& 3).toNat <<< 4 % 2 ^ 8 < 2 ^ 6
      rw [Nat.shiftLeft_eq]
      omega
  rw [i8, if_pos (by omega)]

/-- Sixteen weights of a Q6_K superblock against sixteen activations. -/
theorem q6_vdot (W : ℕ → UInt8) (h : ℕ) {s : ℕ} (hs : s < 4) (k16 : ℕ) (x : ℕ → UInt8) :
    vaddvqS32 (vdotqS32 (vdupqNS32 0)
        (q6Unpack (off W (h * 64)) (off W (128 + h * 32)) s k16) (off x (k16 * 16))) =
      isum 16 fun i => (q6Span W h s (k16 * 16 + i)).toNat * i8 (x (k16 * 16 + i)) := by
  rw [vaddvq_vdotq, byteDot_isum, q6Unpack_eq W h hs]
  simp only [off_apply, i8_q6Span]

/-! ## One column -/

section
variable {F : Type} (A : Arith F)

theorem dotI8Q80Neon_eq (row : ℕ → UInt8) (xq : ℕ → BlkQ81) (cols : ℕ) :
    dotI8Q80Neon A row xq cols = dotI8Q80 A row xq cols := by
  simp only [dotI8Q80Neon, dotI8Q80, vld1q, vdot32, idot32]

theorem dotI8Q4KNeonV1_eq (row : ℕ → UInt8) (xq : ℕ → BlkQ81) (cols : ℕ) :
    dotI8Q4KNeonV1 A row xq cols = dotI8Q4K A row xq cols := by
  simp only [dotI8Q4KNeonV1, dotI8Q4K, vld1q, q4_vdot, vdot32_ones]

/-- The second variant takes the sums and scales of the activation from its caller. -/
theorem dotI8Q4KNeonV2_eq (row : ℕ → UInt8) {xq : ℕ → BlkQ81} {xsum : ℕ → ℤ} {xd : ℕ → F}
    {cols : ℕ} (hsum : ∀ b < cols / 32, xsum b = isum 32 fun i => i8 ((xq b).qs i))
    (hd : ∀ b < cols / 32, xd b = A.ofHalf (xq b).d) :
    dotI8Q4KNeonV2 A row xq xsum xd cols = dotI8Q4K A row xq cols := by
  rw [dotI8Q4KNeonV2, dotI8Q4K]
  congr 1
  apply iter_congr
  intro sb hsb a4
  change _ = iter (4 * 2) a4 _
  rw [iter_mul]
  apply iter_congr
  intro c hc a4
  have hb0 : sb * 8 + 2 * c < cols / 32 := by omega
  have hb1 : sb * 8 + (2 * c + 1) < cols / 32 := by omega
  simp only [iter_two, q4Chunk_eq, hsum _ hb0, hsum _ hb1, hd _ hb0, hd _ hb1, Nat.mul_comm c 2,
    Nat.add_zero, Nat.add_assoc]

theorem dotI8Q6KNeon_eq (row : ℕ → UInt8) (xq : ℕ → BlkQ81) (cols : ℕ) :
    dotI8Q6KNeon A row xq cols = dotI8Q6K A row xq cols := by
  rw [dotI8Q6KNeon, dotI8Q6K]
  congr 1
  apply iter_congr
  intro sb _ a4
  apply iter_congr
  intro h _ a4
  apply iter_congr
  intro s hs a4
  apply iter_congr
  intro k16 _ a4
  simp only [vld1q, q6_vdot _ h hs, vdot16_ones, off_apply]

/-- A sum over eight groups, chunk by chunk. -/
theorem isum_eight (f : ℕ → ℤ) :
    isum 8 f = ∑ c ∈ Finset.range 4, (f (2 * c) + f (2 * c + 1)) := by
  rw [isum_eq]
  change ∑ i ∈ Finset.range (4 * 2), f i = _
  rw [sum_range_mul]
  apply Finset.sum_congr rfl
  intro c _
  rw [Finset.sum_range_succ, Finset.sum_range_one, Nat.mul_comm c 2]
  rfl

/-- The two integer accumulators of a Q4_K superblock, for scales `sc` and mins `mn`. -/
theorem q4AccK_eq (sc mn : ℕ → UInt8) (bsums i : ℕ → ℤ) :
    iter 4 ((0, 0) : ℤ × ℤ) (fun c acc =>
      (acc.1 + ((sc (2 * c)).toNat * i (2 * c) + (sc (2 * c + 1)).toNat * i (2 * c + 1)),
        acc.2 + ((mn (2 * c)).toNat * (bsums (4 * c) + bsums (4 * c + 1)) +
          (mn (2 * c + 1)).toNat * (bsums (4 * c + 2) + bsums (4 * c + 3))))) =
      (isum 8 fun g => (sc g).toNat * i g,
        isum 8 fun g => (mn g).toNat * (bsums (2 * g) + bsums (2 * g + 1))) := by
  refine Prod.ext ?scales ?mins
  case scales =>
    rw [iter_hom Prod.fst (g := fun c s => s + ((sc (2 * c)).toNat * i (2 * c) +
      (sc (2 * c + 1)).toNat * i (2 * c + 1))) fun _ _ _ => rfl, iter_sum, zero_add, isum_eight]
  case mins =>
    change _ = isum 8 _
    rw [iter_hom Prod.snd (g := fun c s => s +
      ((mn (2 * c)).toNat * (bsums (4 * c) + bsums (4 * c + 1)) +
        (mn (2 * c + 1)).toNat * (bsums (4 * c + 2) + bsums (4 * c + 3))))
      fun _ _ _ => rfl, iter_sum, zero_add, isum_eight]
    apply Finset.sum_congr rfl
    intro c _
    simp only [show 2 * (2 * c) = 4 * c by omega, show 2 * (2 * c + 1) = 4 * c + 2 by omega]

/-- The products of the groups of a Q4_K superblock with the codes of a q8_K block. -/
def q4Groups (W : ℕ → UInt8) (x : BlkQ8K F) (g : ℕ) : ℤ :=
  isum 32 fun i => (q4kNibble W g i).toNat * i8 (off x.qs (g * 32) i)

theorem q4Chunk_groups (W : ℕ → UInt8) (x : BlkQ8K F) (c : ℕ) :
    q4Chunk (off W (16 + c * 32)) (off x.qs (c * 64)) (off x.qs (c * 64 + 32)) =
      (q4Groups W x (2 * c), q4Groups W x (2 * c + 1)) := by
  rw [q4Chunk_eq, q4Groups, q4Groups]
  have h1 : 2 * c * 32 = c * 64 := by omega
  have h2 : (2 * c + 1) * 32 = c * 64 + 32 := by omega
  rw [h1, h2]

theorem q4AccK_groups (W : ℕ → UInt8) (x : BlkQ8K F) :
    iter 4 (0, 0) (fun c acc => q4ChunkK W x c (q4Groups W x (2 * c), q4Groups W x (2 * c + 1)) acc) =
      (isum 8 fun g => (q4kScale (off W 4) g).toNat * q4Groups W x g,
        isum 8 fun g => (q4kMin (off W 4) g).toNat * (x.bsums (2 * g) + x.bsums (2 * g + 1))) :=
  q4AccK_eq (q4kScale (off W 4)) (q4kMin (off W 4)) x.bsums (q4Groups W x)

theorem dotI8kQ4KNeon_eq (row : ℕ → UInt8) (xk : ℕ → BlkQ8K F) (cols : ℕ) :
    dotI8kQ4KNeon A row xk cols = dotI8kQ4K A row xk cols := by
  simp only [dotI8kQ4KNeon, dotI8kQ4K, q4Chunk_groups, q4AccK_groups, q4FoldK]
  rfl

/-- The integer accumulator of a Q6_K superblock. -/
theorem q6AccK_eq (W : ℕ → UInt8) (x : BlkQ8K F) :
    (iter 2 0 fun h iacc => iter 4 iacc fun s iacc => iter 2 iacc fun k16 iacc =>
      iacc + i8 (off W (192 + h * 8) (2 * s + k16)) *
        (vaddvqS32 (vdotqS32 (vdupqNS32 0)
            (q6Unpack (off W (h * 64)) (off W (128 + h * 32)) s k16)
            (off (off x.qs ((h * 4 + s) * 32)) (k16 * 16))) -
          32 * x.bsums (2 * (h * 4 + s) + k16))) =
      isum 2 fun h => isum 4 fun s => isum 2 fun k16 =>
        i8 (off W (192 + h * 8) (2 * s + k16)) *
          ((isum 16 fun i => (q6Span W h s (k16 * 16 + i)).toNat *
            i8 (off x.qs ((h * 4 + s) * 32) (k16 * 16 + i))) -
            32 * x.bsums (2 * (h * 4 + s) + k16)) := by
  simp only [isum_eq 2, isum_eq 4, iter_sum, zero_add]
  refine Finset.sum_congr rfl fun h _ => Finset.sum_congr rfl fun s hs =>
    Finset.sum_congr rfl fun k16 _ => ?_
  rw [q6_vdot W h (Finset.mem_range.mp hs)]

theorem dotI8kQ6KNeon_eq (row : ℕ → UInt8) (xk : ℕ → BlkQ8K F) (cols : ℕ) :
    dotI8kQ6KNeon A row xk cols = dotI8kQ6K A row xk cols := by
  simp only [dotI8kQ6KNeon, dotI8kQ6K, vld1q, q6AccK_eq]

/-! ## Several columns -/

/-- A loop over the columns, seen from one of them. -/
theorem iter_column {β : Type} {n p : ℕ} (hp : p < n) (f : ℕ → β → β) (o : ℕ → β) :
    iter n o (fun i o => Function.update o i (f i (o i))) p = f p (o p) := by
  rw [iter_modify, if_pos hp]

/-- The kernel for several columns is, for each of them, the kernel for one. -/
theorem dotI8kQ4KNeonMc_eq (row : ℕ → UInt8) (xk : ℕ → ℕ → BlkQ8K F) {nx p : ℕ} (cols : ℕ)
    (hp : p < nx) : dotI8kQ4KNeonMc A row xk nx cols p = dotI8kQ4K A row (xk p) cols := by
  rw [← dotI8kQ4KNeon_eq, dotI8kQ4KNeonMc, dotI8kQ4KNeon]
  dsimp only
  congr 1
  apply iter_hom (fun a4 : ℕ → ℕ → F => a4 p)
  intro sb _ a4
  set W := off row (sb * 144) with hW
  have hacc : ∀ acc : ℕ → ℤ × ℤ, iter 4 acc (fun c acc => iter nx acc fun p acc =>
      Function.update acc p (q4ChunkK W (xk p sb) c (q4Chunk (off W (16 + c * 32))
        (off (xk p sb).qs (c * 64)) (off (xk p sb).qs (c * 64 + 32))) (acc p))) p =
      iter 4 (acc p) fun c acc => q4ChunkK W (xk p sb) c (q4Chunk (off W (16 + c * 32))
        (off (xk p sb).qs (c * 64)) (off (xk p sb).qs (c * 64 + 32))) acc := by
    intro acc
    apply iter_hom (fun acc : ℕ → ℤ × ℤ => acc p)
    intro c _ acc
    exact iter_column hp (fun p => q4ChunkK W (xk p sb) c (q4Chunk (off W (16 + c * 32))
      (off (xk p sb).qs (c * 64)) (off (xk p sb).qs (c * 64 + 32)))) acc
  rw [← hacc fun _ => (0, 0)]
  exact iter_column hp (fun p => q4FoldK A W sb (xk p sb).d (iter 4 (fun _ => (0, 0)) _ p)) a4

theorem dotI8kQ6KNeonMc_eq (row : ℕ → UInt8) (xk : ℕ → ℕ → BlkQ8K F) {nx p : ℕ} (cols : ℕ)
    (hp : p < nx) : dotI8kQ6KNeonMc A row xk nx cols p = dotI8kQ6K A row (xk p) cols := by
  rw [← dotI8kQ6KNeon_eq, dotI8kQ6KNeonMc, dotI8kQ6KNeon]
  dsimp only
  congr 1
  apply iter_hom (fun a4 : ℕ → ℕ → F => a4 p)
  intro sb _ a4
  refine (iter_column hp (fun p b => fmaAt A b (sb % 4) (A.mul _ (xk p sb).d) (A.ofInt _)) a4).trans ?_
  congr 2
  apply iter_hom (fun iacc : ℕ → ℤ => iacc p)
  intro h _ iacc
  apply iter_hom (fun iacc : ℕ → ℤ => iacc p)
  intro s _ iacc
  apply iter_hom (fun iacc : ℕ → ℤ => iacc p)
  intro k16 _ iacc
  exact iter_column hp (fun p b => b + i8 _ * (vaddvqS32 (vdotqS32 (vdupqNS32 0) _
    (vld1q (off (off (xk p sb).qs _) _))) - 32 * (xk p sb).bsums _)) iacc

theorem dotI8Q80NeonMc_eq (row : ℕ → UInt8) (xq : ℕ → ℕ → BlkQ81) {nx p : ℕ} (cols : ℕ)
    (hp : p < nx) : dotI8Q80NeonMc A row xq nx cols p = dotI8Q80 A row (xq p) cols := by
  rw [← dotI8Q80Neon_eq, dotI8Q80NeonMc, dotI8Q80Neon]
  dsimp only
  congr 1
  apply iter_hom (fun a4 : ℕ → ℕ → F => a4 p)
  intro b _ a4
  exact iter_column hp (fun p c => fmaAt A c (b % 4) (A.mul _ (A.ofHalf (xq p b).d)) (A.ofInt
    (vaddvqS32 (vdotqS32 (vdotqS32 (vdupqNS32 0) _ (vld1q (xq p b).qs)) _
      (vld1q (off (xq p b).qs 16)))))) a4

end

/-! ## Pairs of rows and pairs of columns -/

/-- The columns lie interleaved at `xi`, pair by pair. -/
def Interleaved {F : Type} (xk : ℕ → ℕ → BlkQ8K F) (nx cols : ℕ) (xi : ℕ → UInt8) : Prop :=
  ∀ cp < nx / 2, ∀ sb < cols / 256, ∀ g < 32, ∀ j < 2, ∀ i < 8,
    xi (cp * cols * 2 + sb * 512 + g * 16 + j * 8 + i) = (xk (2 * cp + j) sb).qs (g * 8 + i)

theorem memcpy8_fills {v : ℕ → UInt8} {o : ℕ} {s : ℕ → UInt8} (hs : ∀ i < 8, s i = v (o + i))
    (d : ℕ → UInt8) : Fills v (fun k => ∃ i < 8, k = o + i) d (memcpy8 d o s) := by
  apply Fills.loop
  intro i hi d
  exact Fills.store (hs i hi)

/-- `fl_interleave_act_q8k` interleaves. -/
theorem interleave_at {F : Type} (xk : ℕ → ℕ → BlkQ8K F) {nx cols : ℕ} (hnx : nx % 2 = 0)
    (hc : 256 ∣ cols) (xi : ℕ → UInt8) :
    Interleaved xk nx cols (flInterleaveActQ8k xk nx cols xi) := by
  -- the byte that belongs at place `k`
  let v (k : ℕ) : UInt8 :=
    let k' := k % (cols * 2)
    (xk (2 * (k / (cols * 2)) + k' % 16 / 8) (k' / 512)).qs (k' % 512 / 16 * 8 + k' % 8)
  have hv : ∀ cp, ∀ sb < cols / 256, ∀ g < 32, ∀ j < 2, ∀ i < 8,
      v (cp * cols * 2 + sb * 512 + g * 16 + j * 8 + i) = (xk (2 * cp + j) sb).qs (g * 8 + i) := by
    intro cp sb hsb g hg j hj i hi
    set o := sb * 512 + g * 16 + j * 8 + i with ho
    have hlt : o < cols * 2 := by omega
    have hk : cp * cols * 2 + sb * 512 + g * 16 + j * 8 + i = cols * 2 * cp + o := by
      rw [ho]; ring
    have hdiv : (cols * 2 * cp + o) / (cols * 2) = cp := by
      rw [Nat.mul_add_div (by omega), Nat.div_eq_of_lt hlt, Nat.add_zero]
    have hmod : (cols * 2 * cp + o) % (cols * 2) = o := by
      rw [Nat.mul_add_mod, Nat.mod_eq_of_lt hlt]
    have h1 : o % 16 / 8 = j := by omega
    have h2 : o / 512 = sb := by omega
    have h3 : o % 512 / 16 * 8 + o % 8 = g * 8 + i := by omega
    simp only [hk, v, hdiv, hmod, h1, h2, h3]
  have hfill : Fills v
      (fun k => ∃ cp < (nx + 1) / 2, ∃ sb < cols / 256, ∃ g < 32,
        (∃ i < 8, k = cp * cols * 2 + sb * 512 + g * 16 + i) ∨
          ∃ i < 8, k = cp * cols * 2 + sb * 512 + g * 16 + 8 + i)
      xi (flInterleaveActQ8k xk nx cols xi) := by
    apply Fills.loop
    intro cp _ xi
    apply Fills.loop
    intro sb hsb xi
    apply Fills.loop
    intro g hg xi
    refine (memcpy8_fills (fun i hi => ?even) _).trans (memcpy8_fills (fun i hi => ?odd) _)
    case even => exact (hv cp sb hsb g hg 0 (by omega) i hi).symm
    case odd => exact (hv cp sb hsb g hg 1 (by omega) i hi).symm
  intro cp hcp sb hsb g hg j hj i hi
  rw [← hv cp sb hsb g hg j hj i hi]
  refine hfill _ (.inl ⟨cp, by omega, sb, hsb, g, hg, ?_⟩)
  rcases Nat.lt_succ_iff_lt_or_eq.mp hj with h0 | rfl
  · exact .inl ⟨i, hi, by omega⟩
  · exact .inr ⟨i, hi, by omega⟩

/-- The operand of two rows holds eight elements of each. -/
theorem rowPair_apply {u : (ℕ → UInt8) → ℕ → UInt8} (hu : ∀ p k i, u (off p k) i = u p (k + i))
    (q : ℕ → ℕ → UInt8) {c i k : ℕ} (hc : c < 4) (hi : i < 2) (hk : k < 8) :
    rowPair c (u (q 0)) (u (off (q 0) 16)) (u (q 1)) (u (off (q 1) 16)) (8 * i + k) =
      u (q i) (c * 8 + k) := by
  have h8 : ¬ 8 + k < 8 := by omega
  have hi' : i = 0 ∨ i = 1 := by omega
  have hc' : c = 0 ∨ c = 1 ∨ c = 2 ∨ c = 3 := by omega
  rcases hi' with rfl | rfl <;> rcases hc' with rfl | rfl | rfl | rfl <;>
    simp [rowPair, vcombineS8, vgetLowS8, vgetHighS8, hu, hk, ← Nat.add_assoc]

/-- The lane of a row and a column, over thirty-two elements. -/
theorem mmla4_eq {a : ℕ → ℕ → UInt8} {b w x : ℕ → UInt8} {i j : ℕ} (hj : j < 2)
    (ha : ∀ c < 4, ∀ k < 8, a c (8 * i + k) = w (c * 8 + k))
    (hb : ∀ c < 4, ∀ k < 8, b (c * 16 + (8 * j + k)) = x (c * 8 + k)) :
    mmla4 a b (2 * i + j) = isum 32 fun e => i8 (w e) * i8 (x e) := by
  have h := vmmlaq_four a (fun c => off b (c * 16)) i hj
  simp only [Nat.zero_mul, Nat.one_mul, Nat.reduceMul, off_zero] at h
  rw [mmla4]
  simp only [vld1q]
  rw [h, isum_eq]
  change _ = ∑ e ∈ Finset.range (4 * 8), _
  rw [sum_range_mul]
  refine Finset.sum_congr rfl fun c hc => Finset.sum_congr rfl fun k hk => ?_
  have hc' := Finset.mem_range.mp hc
  have hk' := Finset.mem_range.mp hk
  simp only [off_apply, ha c hc' k hk', hb c hc' k hk']

section
variable {F : Type} (A : Arith F)

/-- The lane of row `i` and column `j` for the low nibbles of a chunk. -/
theorem mmla4_lo (W : ℕ → ℕ → UInt8) (x : BlkQ8K F) (c : ℕ) {b : ℕ → UInt8} {i j : ℕ} (hi : i < 2)
    (hj : j < 2) (hb : ∀ g < 4, ∀ k < 8, b (g * 16 + (8 * j + k)) = x.qs (c * 64 + (g * 8 + k))) :
    mmla4 (fun g => rowPair g (vandqU8 (off (W 0) (16 + c * 32)) (vdupqN8 0x0F))
        (vandqU8 (off (off (W 0) (16 + c * 32)) 16) (vdupqN8 0x0F))
        (vandqU8 (off (W 1) (16 + c * 32)) (vdupqN8 0x0F))
        (vandqU8 (off (off (W 1) (16 + c * 32)) 16) (vdupqN8 0x0F))) b (2 * i + j) =
      q4Groups (W i) x (2 * c) := by
  have h1 : ¬ 2 * c % 2 = 1 := by omega
  have h2 : 2 * c / 2 = c := by omega
  have h3 : 2 * c * 32 = c * 64 := by omega
  rw [mmla4_eq (w := q4kNibble (W i) (2 * c)) (x := off x.qs (c * 64)) hj ?rows hb, q4Groups]
  case rows =>
    intro g hg k hk
    rw [rowPair_apply (u := fun p => vandqU8 p (vdupqN8 0x0F)) (fun _ _ _ => rfl)
      (fun i => off (W i) (16 + c * 32)) hg hi hk]
    simp only [q4kNibble, h1, if_false, h2]
    rfl
  simp only [i8_q4kNibble, h3]

/-- The lane of row `i` and column `j` for the high nibbles of a chunk. -/
theorem mmla4_hi (W : ℕ → ℕ → UInt8) (x : BlkQ8K F) (c : ℕ) {b : ℕ → UInt8} {i j : ℕ} (hi : i < 2)
    (hj : j < 2)
    (hb : ∀ g < 4, ∀ k < 8, b (g * 16 + (8 * j + k)) = x.qs (c * 64 + 32 + (g * 8 + k))) :
    mmla4 (fun g => rowPair g (vshrqNU8 (off (W 0) (16 + c * 32)) 4)
        (vshrqNU8 (off (off (W 0) (16 + c * 32)) 16) 4)
        (vshrqNU8 (off (W 1) (16 + c * 32)) 4)
        (vshrqNU8 (off (off (W 1) (16 + c * 32)) 16) 4)) b (2 * i + j) =
      q4Groups (W i) x (2 * c + 1) := by
  have h1 : (2 * c + 1) % 2 = 1 := by omega
  have h2 : (2 * c + 1) / 2 = c := by omega
  have h3 : (2 * c + 1) * 32 = c * 64 + 32 := by omega
  rw [mmla4_eq (w := q4kNibble (W i) (2 * c + 1)) (x := off x.qs (c * 64 + 32)) hj ?rows hb,
    q4Groups]
  case rows =>
    intro g hg k hk
    rw [rowPair_apply (u := fun p => vshrqNU8 p 4) (fun _ _ _ => rfl)
      (fun i => off (W i) (16 + c * 32)) hg hi hk]
    simp only [q4kNibble, h1, if_true, h2]
    rfl
  simp only [i8_q4kNibble, h3]

/-- What a chunk adds to the accumulators of a column, for both rows. -/
def q4PairStep (W : ℕ → ℕ → UInt8) (x : BlkQ8K F) (c : ℕ) (acc : (ℤ × ℤ) × (ℤ × ℤ)) :
    (ℤ × ℤ) × (ℤ × ℤ) :=
  (q4ChunkK (W 0) x c (q4Groups (W 0) x (2 * c), q4Groups (W 0) x (2 * c + 1)) acc.1,
    q4ChunkK (W 1) x c (q4Groups (W 1) x (2 * c), q4Groups (W 1) x (2 * c + 1)) acc.2)

/-- The loop over pairs of columns is a loop over columns. -/
theorem smmla_chunk (W : ℕ → ℕ → UInt8) {xk : ℕ → ℕ → BlkQ8K F} {xi : ℕ → UInt8} {nx cols sb c : ℕ}
    (hnx : nx % 2 = 0) (hxi : Interleaved xk nx cols xi) (hsb : sb < cols / 256) (hc : c < 4)
    (acc : ℕ → (ℤ × ℤ) × (ℤ × ℤ)) :
    iter ((nx + 1) / 2) acc (fun cp acc =>
      let b := off xi (cp * cols * 2 + sb * 512 + c * 128)
      let lo := mmla4 (fun g => rowPair g (vandqU8 (off (W 0) (16 + c * 32)) (vdupqN8 0x0F))
        (vandqU8 (off (off (W 0) (16 + c * 32)) 16) (vdupqN8 0x0F))
        (vandqU8 (off (W 1) (16 + c * 32)) (vdupqN8 0x0F))
        (vandqU8 (off (off (W 1) (16 + c * 32)) 16) (vdupqN8 0x0F))) b
      let hi := mmla4 (fun g => rowPair g (vshrqNU8 (off (W 0) (16 + c * 32)) 4)
        (vshrqNU8 (off (off (W 0) (16 + c * 32)) 16) 4)
        (vshrqNU8 (off (W 1) (16 + c * 32)) 4)
        (vshrqNU8 (off (off (W 1) (16 + c * 32)) 16) 4)) (off b 64)
      let acc := Function.update acc (2 * cp)
        (q4ChunkK (W 0) (xk (2 * cp) sb) c (lo 0, hi 0) (acc (2 * cp)).1,
          q4ChunkK (W 1) (xk (2 * cp) sb) c (lo 2, hi 2) (acc (2 * cp)).2)
      Function.update acc (2 * cp + 1)
        (q4ChunkK (W 0) (xk (2 * cp + 1) sb) c (lo 1, hi 1) (acc (2 * cp + 1)).1,
          q4ChunkK (W 1) (xk (2 * cp + 1) sb) c (lo 3, hi 3) (acc (2 * cp + 1)).2)) =
      iter nx acc fun p acc => Function.update acc p (q4PairStep W (xk p sb) c (acc p)) := by
  have h1 : (nx + 1) / 2 = nx / 2 := by omega
  conv_rhs => rw [show nx = nx / 2 * 2 by omega, iter_mul]
  rw [h1]
  apply iter_congr
  intro cp hcp acc
  set b := off xi (cp * cols * 2 + sb * 512 + c * 128) with hb
  have hlo : ∀ j < 2, ∀ g < 4, ∀ k < 8,
      b (g * 16 + (8 * j + k)) = (xk (2 * cp + j) sb).qs (c * 64 + (g * 8 + k)) := by
    intro j hj g hg k hk
    have h := hxi cp hcp sb hsb (c * 8 + g) (by omega) j hj k hk
    have h2 : cp * cols * 2 + sb * 512 + c * 128 + (g * 16 + (8 * j + k)) =
        cp * cols * 2 + sb * 512 + (c * 8 + g) * 16 + j * 8 + k := by ring
    have h3 : c * 64 + (g * 8 + k) = (c * 8 + g) * 8 + k := by ring
    rw [hb, off_apply, h2, h, h3]
  have hhi : ∀ j < 2, ∀ g < 4, ∀ k < 8,
      off b 64 (g * 16 + (8 * j + k)) = (xk (2 * cp + j) sb).qs (c * 64 + 32 + (g * 8 + k)) := by
    intro j hj g hg k hk
    have h := hxi cp hcp sb hsb (c * 8 + 4 + g) (by omega) j hj k hk
    have h2 : cp * cols * 2 + sb * 512 + c * 128 + (64 + (g * 16 + (8 * j + k))) =
        cp * cols * 2 + sb * 512 + (c * 8 + 4 + g) * 16 + j * 8 + k := by ring
    have h3 : c * 64 + 32 + (g * 8 + k) = (c * 8 + 4 + g) * 8 + k := by ring
    rw [hb, off_apply, off_apply, h2, h, h3]
  have hl (i j : ℕ) (hi : i < 2) (hj : j < 2) := mmla4_lo W (xk (2 * cp + j) sb) c hi hj (hlo j hj)
  have hh (i j : ℕ) (hi : i < 2) (hj : j < 2) := mmla4_hi W (xk (2 * cp + j) sb) c hi hj (hhi j hj)
  rw [iter_two]
  simp only [Nat.mul_comm cp 2, Nat.add_zero, q4PairStep]
  rw [hl 0 0 (by omega) (by omega), hh 0 0 (by omega) (by omega), hl 1 0 (by omega) (by omega),
    hh 1 0 (by omega) (by omega), hl 0 1 (by omega) (by omega), hh 0 1 (by omega) (by omega),
    hl 1 1 (by omega) (by omega), hh 1 1 (by omega) (by omega)]
  rfl

/-- The superblocks `sb` of the two rows of a pair. -/
def pairRow (row0 row1 : ℕ → UInt8) (sb : ℕ) : ℕ → ℕ → UInt8
  | 0 => off row0 (sb * 144)
  | _ => off row1 (sb * 144)

/-- The integer accumulators of all columns after a superblock. -/
def pairAcc (W : ℕ → ℕ → UInt8) (xk : ℕ → ℕ → BlkQ8K F) (nx sb : ℕ) : ℕ → (ℤ × ℤ) × (ℤ × ℤ) :=
  iter 4 (fun _ => ((0, 0), (0, 0))) fun c acc =>
    iter nx acc fun p acc => Function.update acc p (q4PairStep W (xk p sb) c (acc p))

/-- The two terms of a superblock, for both rows. -/
def pairFold (W : ℕ → ℕ → UInt8) (sb : ℕ) (dk : F) (acc : (ℤ × ℤ) × (ℤ × ℤ))
    (ab : (ℕ → F) × (ℕ → F)) : (ℕ → F) × (ℕ → F) :=
  (q4FoldK A (W 0) sb dk acc.1 ab.1, q4FoldK A (W 1) sb dk acc.2 ab.2)

/-- The integer accumulators of one row after a superblock. -/
def rowAcc (W : ℕ → UInt8) (x : BlkQ8K F) : ℤ × ℤ :=
  iter 4 (0, 0) fun c acc => q4ChunkK W x c (q4Groups W x (2 * c), q4Groups W x (2 * c + 1)) acc

/-- A column of the accumulators sees its own activation only, and a row its own weights. -/
theorem pairAcc_column (W : ℕ → ℕ → UInt8) (xk : ℕ → ℕ → BlkQ8K F) {nx p : ℕ} (sb : ℕ)
    (hp : p < nx) : pairAcc W xk nx sb p = (rowAcc (W 0) (xk p sb), rowAcc (W 1) (xk p sb)) := by
  have hcol : pairAcc W xk nx sb p =
      iter 4 ((0, 0), (0, 0)) fun c acc => q4PairStep W (xk p sb) c acc := by
    apply iter_hom (fun acc : ℕ → (ℤ × ℤ) × (ℤ × ℤ) => acc p)
    intro c _ acc
    exact iter_column hp (fun p => q4PairStep W (xk p sb) c) acc
  rw [hcol]
  apply Prod.ext
  · exact iter_hom Prod.fst fun _ _ _ => rfl
  · exact iter_hom Prod.snd fun _ _ _ => rfl

/-- The kernel with its loop over pairs of columns written over columns. -/
theorem dotI8kQ4KNeonMcSmmla_columns (row0 row1 : ℕ → UInt8) {xk : ℕ → ℕ → BlkQ8K F}
    {xi : ℕ → UInt8} {nx cols : ℕ} (hnx : nx % 2 = 0) (hxi : Interleaved xk nx cols xi) (p : ℕ) :
    dotI8kQ4KNeonMcSmmla A row0 row1 xk xi nx cols p =
      (fun a4 : ℕ → (ℕ → F) × (ℕ → F) => (fold4 A (a4 p).1, fold4 A (a4 p).2))
        (iter (cols / 256) (fun _ => (acc0 A, acc0 A)) fun sb a4 =>
          iter nx a4 fun p a4 => Function.update a4 p
            (pairFold A (pairRow row0 row1 sb) sb (xk p sb).d
              (pairAcc (pairRow row0 row1 sb) xk nx sb p) (a4 p))) := by
  refine congrArg (fun a4 : ℕ → (ℕ → F) × (ℕ → F) => (fold4 A (a4 p).1, fold4 A (a4 p).2))
    (iter_congr fun sb hsb a4 => ?_)
  refine congrArg (fun acc : ℕ → (ℤ × ℤ) × (ℤ × ℤ) => iter nx a4 fun p a4 => Function.update a4 p
    (pairFold A (pairRow row0 row1 sb) sb (xk p sb).d (acc p) (a4 p))) ?_
  exact iter_congr fun c hc acc => smmla_chunk (pairRow row0 row1 sb) hnx hxi hsb hc acc

/-- The kernel for pairs of rows and columns is, for each of them, the reference. -/
theorem dotI8kQ4KNeonMcSmmla_eq (row0 row1 : ℕ → UInt8) {xk : ℕ → ℕ → BlkQ8K F} {xi : ℕ → UInt8}
    {nx cols p : ℕ} (hnx : nx % 2 = 0) (hxi : Interleaved xk nx cols xi) (hp : p < nx) :
    dotI8kQ4KNeonMcSmmla A row0 row1 xk xi nx cols p =
      (dotI8kQ4K A row0 (xk p) cols, dotI8kQ4K A row1 (xk p) cols) := by
  rw [dotI8kQ4KNeonMcSmmla_columns A row0 row1 hnx hxi, ← dotI8kQ4KNeon_eq, ← dotI8kQ4KNeon_eq]
  simp only [dotI8kQ4KNeon, q4Chunk_groups]
  -- the superblocks, seen from column `p`
  have hrounds : iter (cols / 256) (fun _ => (acc0 A, acc0 A)) (fun sb a4 =>
      iter nx a4 fun p a4 => Function.update a4 p
        (pairFold A (pairRow row0 row1 sb) sb (xk p sb).d
          (pairAcc (pairRow row0 row1 sb) xk nx sb p) (a4 p))) p =
      iter (cols / 256) (acc0 A, acc0 A) fun sb ab =>
        pairFold A (pairRow row0 row1 sb) sb (xk p sb).d
          (pairAcc (pairRow row0 row1 sb) xk nx sb p) ab := by
    apply iter_hom (fun a4 : ℕ → (ℕ → F) × (ℕ → F) => a4 p)
    intro sb _ a4
    exact iter_column hp (fun p => pairFold A (pairRow row0 row1 sb) sb (xk p sb).d
      (pairAcc (pairRow row0 row1 sb) xk nx sb p)) a4
  rw [hrounds]
  simp only [pairAcc_column _ xk _ hp]
  apply Prod.ext
  · exact congrArg (fold4 A) (iter_hom Prod.fst fun _ _ _ => rfl)
  · exact congrArg (fold4 A) (iter_hom Prod.snd fun _ _ _ => rfl)

/-! ## Shadows -/

/-- The vectorized shadow kernel is the plain one. -/
theorem dotI8kQ4KShadowNeon_eq (srow : ℕ → UInt8) (xk : ℕ → BlkQ8K F) (cols : ℕ) :
    dotI8kQ4KShadowNeon A srow xk cols = dotI8kQ4KShadow A srow xk cols := by
  rw [dotI8kQ4KShadowNeon, dotI8kQ4KShadow]
  congr 1
  apply iter_congr
  intro sb _ a4
  dsimp only
  set qs := off (off srow (sb * 280)) 24
  set xs := (xk sb).qs
  let i (g : ℕ) : ℤ := isum 32 fun j =>
    i8 (off qs (g / 2 * 64 + g % 2 * 32) j) * i8 (off xs (g * 32) j)
  have hdot (k : ℕ) : vaddvqS32 (vdotqS32 (vdotqS32 (vdupqNS32 0) (vld1q (off qs k))
      (vld1q (off xs k))) (vld1q (off qs (k + 16))) (vld1q (off xs (k + 16)))) =
      isum 32 fun j => i8 (off qs k j) * i8 (off xs k j) := by
    rw [← off_off, ← off_off]
    exact vdot32 (off qs k) (off xs k)
  have hlo (c : ℕ) : (isum 32 fun j => i8 (off qs (c * 64) j) * i8 (off xs (c * 64) j)) =
      i (2 * c) := by
    have h1 : 2 * c / 2 * 64 + 2 * c % 2 * 32 = c * 64 := by omega
    have h2 : 2 * c * 32 = c * 64 := by omega
    simp only [i, h1, h2]
  have hhi (c : ℕ) : (isum 32 fun j => i8 (off qs (c * 64 + 32) j) * i8 (off xs (c * 64 + 32) j)) =
      i (2 * c + 1) := by
    have h1 : (2 * c + 1) / 2 * 64 + (2 * c + 1) % 2 * 32 = c * 64 + 32 := by omega
    have h2 : (2 * c + 1) * 32 = c * 64 + 32 := by omega
    simp only [i, h1, h2]
  simp only [hdot, hlo, hhi, q4AccK_eq _ _ (xk sb).bsums i]
  rfl

theorem dotI8Q50ShadowNeon_eq (srow : ℕ → UInt8) (xq : ℕ → BlkQ81) (cols : ℕ) :
    dotI8Q50ShadowNeon A srow xq cols = dotI8Q50Shadow A srow xq cols := by
  simp only [dotI8Q50ShadowNeon, dotI8Q50Shadow, vld1q, vdot32, vdot32_ones]

/-! ## All kernels -/

/-- Every NEON kernel is, float operation for float operation, the reference of its format: the
kernels for one column, every column of the kernels for several, and both rows of the kernel for
pairs, which reads the activation interleaved by `fl_interleave_act_q8k`. -/
theorem neon_eq_reference (row row1 : ℕ → UInt8) (cols : ℕ) :
    (∀ xq, dotI8Q80Neon A row xq cols = dotI8Q80 A row xq cols ∧
      dotI8Q4KNeonV1 A row xq cols = dotI8Q4K A row xq cols ∧
      dotI8Q6KNeon A row xq cols = dotI8Q6K A row xq cols) ∧
    (∀ xq xsum xd, (∀ b < cols / 32, xsum b = isum 32 fun i => i8 ((xq b).qs i)) →
      (∀ b < cols / 32, xd b = A.ofHalf (xq b).d) →
      dotI8Q4KNeonV2 A row xq xsum xd cols = dotI8Q4K A row xq cols) ∧
    (∀ xk, dotI8kQ4KNeon A row xk cols = dotI8kQ4K A row xk cols ∧
      dotI8kQ6KNeon A row xk cols = dotI8kQ6K A row xk cols) ∧
    (∀ xq nx, ∀ p < nx, dotI8Q80NeonMc A row xq nx cols p = dotI8Q80 A row (xq p) cols) ∧
    (∀ xk nx, ∀ p < nx, dotI8kQ4KNeonMc A row xk nx cols p = dotI8kQ4K A row (xk p) cols ∧
      dotI8kQ6KNeonMc A row xk nx cols p = dotI8kQ6K A row (xk p) cols) ∧
    ∀ xk nx xi, 256 ∣ cols → nx % 2 = 0 → ∀ p < nx,
      dotI8kQ4KNeonMcSmmla A row row1 xk (flInterleaveActQ8k xk nx cols xi) nx cols p =
        (dotI8kQ4K A row (xk p) cols, dotI8kQ4K A row1 (xk p) cols) := by
  refine ⟨fun xq => ⟨?q80, ?q4v1, ?q6⟩, fun xq xsum xd hsum hd => ?q4v2, fun xk => ⟨?k4, ?k6⟩,
    fun xq nx p hp => ?q80mc, fun xk nx p hp => ⟨?k4mc, ?k6mc⟩,
    fun xk nx xi hcols hnx p hp => ?smmla⟩
  case q80 => exact dotI8Q80Neon_eq A row xq cols
  case q4v1 => exact dotI8Q4KNeonV1_eq A row xq cols
  case q6 => exact dotI8Q6KNeon_eq A row xq cols
  case q4v2 => exact dotI8Q4KNeonV2_eq A row hsum hd
  case k4 => exact dotI8kQ4KNeon_eq A row xk cols
  case k6 => exact dotI8kQ6KNeon_eq A row xk cols
  case q80mc => exact dotI8Q80NeonMc_eq A row xq cols hp
  case k4mc => exact dotI8kQ4KNeonMc_eq A row xk cols hp
  case k6mc => exact dotI8kQ6KNeonMc_eq A row xk cols hp
  case smmla =>
    have hxi := interleave_at xk hnx hcols xi
    exact dotI8kQ4KNeonMcSmmla_eq A row row1 hnx hxi hp

end

/-- Two superblocks, four columns, and an activation that differs from column to column. -/
theorem neon_eq_reference_four :
    let A : Arith ℚ := .exact fun w => w.toNat
    let row : ℕ → UInt8 := fun i => UInt8.ofNat (7 * i)
    let row1 : ℕ → UInt8 := fun i => UInt8.ofNat (11 * i)
    let xq : ℕ → BlkQ81 := fun b => ⟨0x3C00, UInt16.ofNat b, fun i => UInt8.ofNat (b + 3 * i)⟩
    let xk : ℕ → ℕ → BlkQ8K ℚ := fun p b => ⟨1, fun _ => 0, fun i => UInt8.ofNat (p + b + 5 * i)⟩
    dotI8Q4KNeonV2 A row xq (fun b => isum 32 fun i => i8 ((xq b).qs i))
        (fun b => A.ofHalf (xq b).d) 512 = dotI8Q4K A row xq 512 ∧
      dotI8Q80NeonMc A row (fun _ => xq) 4 512 3 = dotI8Q80 A row xq 512 ∧
      dotI8kQ4KNeonMc A row xk 4 512 3 = dotI8kQ4K A row (xk 3) 512 ∧
      dotI8kQ4KNeonMcSmmla A row row1 xk (flInterleaveActQ8k xk 4 512 fun _ => 0) 4 512 3 =
        (dotI8kQ4K A row (xk 3) 512, dotI8kQ4K A row1 (xk 3) 512) := by
  intro A row row1 xq xk
  obtain ⟨-, hv2, -, hq80, hmc, hpair⟩ := neon_eq_reference A row row1 512
  refine ⟨?_, ?_, ?_, ?_⟩
  · exact hv2 xq _ _ (fun _ _ => rfl) fun _ _ => rfl
  · exact hq80 (fun _ => xq) 4 3 (by decide)
  · exact (hmc xk 4 3 (by decide)).1
  · exact hpair xk 4 (fun _ => 0) (by decide) (by decide) 3 (by decide)

end FastLlm
