import FastLlm.Runtime.DotRow
import Mathlib.Algebra.BigOperators.Ring.Finset
import Mathlib.Data.Int.Cast.Lemmas
import Mathlib.Logic.Function.Basic

/-!
# Quantized activations and the int8 row dot products

`ACT_Q8` writes two appendices behind an activation column: q8_1 blocks of 32 and q8_K
superblocks of 256 elements.  The int8 reference dots multiply the packed weights with these
integers and fold offsets and mins through sums of the activation; four accumulators take the
terms in rotation.

In exact arithmetic the result is the canonical dot product of the row with the dequantized
activation: every group of weights is affine in an integer, and `sum_affine` is the identity behind
all six of them.

## Main definitions

* `BlkQ81`, `BlkQ8K` — the blocks; `deq81`, `deq8K` — the activation they stand for.
* `fmaAt`, `fold4` — the four accumulators.
* `dotI8Q80`, …, `dotI8Any`, `dotI8kAny` — the reference dots.
-/

namespace FastLlm

/-- `blk_q8_1`: 32 codes with a scale.  `s` is the scaled sum of the codes. -/
structure BlkQ81 where
  d : UInt16
  s : UInt16
  qs : ℕ → UInt8

/-- `blk_q8_K`: 256 codes with a scale, and the sums of 16 codes each (`int16_t`). -/
structure BlkQ8K (F : Type) where
  d : F
  bsums : ℕ → ℤ
  qs : ℕ → UInt8

/-- An `int` sum over a loop. -/
def isum (n : ℕ) (f : ℕ → ℤ) : ℤ := iter n 0 fun i s => s + f i

theorem isum_eq (n : ℕ) (f : ℕ → ℤ) : isum n f = ∑ i ∈ Finset.range n, f i := by
  rw [isum, iter_sum, zero_add]

theorem isum_congr {n : ℕ} {f g : ℕ → ℤ} (h : ∀ i < n, f i = g i) : isum n f = isum n g := by
  rw [isum_eq, isum_eq]
  exact Finset.sum_congr rfl fun i hi => h i (Finset.mem_range.mp hi)

/-- `fl_idot32`. -/
def idot32 (a b : ℕ → UInt8) : ℤ := isum 32 fun i => i8 (a i) * i8 (b i)

section
variable {F : Type} (A : Arith F)

/-! ## The reference dots -/

/-- `a[k] = fmaf(p, v, a[k])`. -/
def fmaAt (a : ℕ → F) (k : ℕ) (p v : F) : ℕ → F := Function.update a k (A.fma p v (a k))

/-- `fl_fold4`. -/
def fold4 (a : ℕ → F) : F := A.add (A.add (a 0) (a 1)) (A.add (a 2) (a 3))

/-- `float a4[4] = {0.f, 0.f, 0.f, 0.f}`. -/
def acc0 : ℕ → F := fun _ => A.zero

/-- `fl_dot_i8_q8_0`. -/
def dotI8Q80 (row : ℕ → UInt8) (xq : ℕ → BlkQ81) (cols : ℕ) : F :=
  fold4 A (iter (cols / 32) (acc0 A) fun b a4 =>
    let W := off row (b * 34)
    fmaAt A a4 (b % 4) (A.mul (A.ofHalf (le16 W 0)) (A.ofHalf (xq b).d))
      (A.ofInt (idot32 (off W 2) (xq b).qs)))

/-- `fl_dot_i8_q5_0`. -/
def dotI8Q50 (row : ℕ → UInt8) (xq : ℕ → BlkQ81) (cols : ℕ) : F :=
  fold4 A (iter (cols / 32) (acc0 A) fun b a4 =>
    let W := off row (b * 22)
    let qh := le32 W 2
    let qs := off W 6
    let idot := isum 16 fun j =>
      let lo := (qs j &&& (0x0F : UInt8)) ||| (((qh >>> UInt32.ofNat j) <<< 4) &&& 0x10).toUInt8
      let hi := (qs j >>> 4) ||| ((qh >>> UInt32.ofNat (j + 12)) &&& 0x10).toUInt8
      lo.toNat * i8 ((xq b).qs j) + hi.toNat * i8 ((xq b).qs (16 + j))
    let xsum := isum 32 fun i => i8 ((xq b).qs i)
    fmaAt A a4 (b % 4) (A.mul (A.ofHalf (le16 W 0)) (A.ofHalf (xq b).d))
      (A.ofInt (idot - 16 * xsum)))

/-- Nibble `i` of group `g` of a Q4_K superblock, as the int8 kernels find it. -/
def q4kNibble (W : ℕ → UInt8) (g i : ℕ) : UInt8 :=
  let q := off W (16 + g / 2 * 32)
  if g % 2 = 1 then q i >>> 4 else q i &&& (0x0F : UInt8)

/-- `fl_dot_i8_q4_K`. -/
def dotI8Q4K (row : ℕ → UInt8) (xq : ℕ → BlkQ81) (cols : ℕ) : F :=
  fold4 A (iter (cols / 256) (acc0 A) fun sb a4 =>
    let W := off row (sb * 144)
    let d := A.ofHalf (le16 W 0)
    let dmin := A.ofHalf (le16 W 2)
    iter 8 a4 fun g a4 =>
      let sc := A.ofU8 (q4kScale (off W 4) g)
      let mn := A.ofU8 (q4kMin (off W 4) g)
      let xg := xq (sb * 8 + g)
      let idot := isum 32 fun i => (q4kNibble W g i).toNat * i8 (xg.qs i)
      let xsum := isum 32 fun i => i8 (xg.qs i)
      let dx := A.ofHalf xg.d
      let a4 := fmaAt A a4 (g % 4) (A.mul (A.mul d sc) dx) (A.ofInt idot)
      fmaAt A a4 (g % 4) (A.mul (A.neg (A.mul dmin mn)) dx) (A.ofInt xsum))

/-- The six-bit number of element `e` of span `s` of half `h`, as the int8 kernels compose it. -/
def q6Span (W : ℕ → UInt8) (h s e : ℕ) : UInt8 :=
  let ql := off W (h * 64)
  let qh := off W (128 + h * 32)
  let lb := ql (s % 2 * 32 + e)
  (if s < 2 then lb &&& (0x0F : UInt8) else lb >>> 4) |||
    (((qh e >>> UInt8.ofNat (2 * s)) &&& (3 : UInt8)) <<< 4)

/-- `fl_dot_i8_q6_K`. -/
def dotI8Q6K (row : ℕ → UInt8) (xq : ℕ → BlkQ81) (cols : ℕ) : F :=
  fold4 A (iter (cols / 256) (acc0 A) fun sb a4 =>
    let W := off row (sb * 210)
    let d := A.ofHalf (le16 W 208)
    iter 2 a4 fun h a4 =>
      let sc := off W (192 + h * 8)
      iter 4 a4 fun s a4 =>
        let xg := xq (sb * 8 + h * 4 + s)
        let dx := A.ofHalf xg.d
        iter 2 a4 fun k16 a4 =>
          let idot := isum 16 fun i =>
            let e := k16 * 16 + i
            (q6Span W h s e).toNat * i8 (xg.qs e)
          let xsum := isum 16 fun i => i8 (xg.qs (k16 * 16 + i))
          let t := i8 (sc (2 * s + k16)) * (idot - 32 * xsum)
          let ti := h * 8 + s * 2 + k16
          fmaAt A a4 (ti % 4) (A.mul d dx) (A.ofInt t))

/-- `fl_dot_i8k_q4_K`. -/
def dotI8kQ4K (row : ℕ → UInt8) (xk : ℕ → BlkQ8K F) (cols : ℕ) : F :=
  fold4 A (iter (cols / 256) (acc0 A) fun sb a4 =>
    let W := off row (sb * 144)
    let d := A.ofHalf (le16 W 0)
    let dmin := A.ofHalf (le16 W 2)
    let dk := (xk sb).d
    let iacc := isum 8 fun g =>
      let xg := off (xk sb).qs (g * 32)
      (q4kScale (off W 4) g).toNat * isum 32 fun i => (q4kNibble W g i).toNat * i8 (xg i)
    let imins := isum 8 fun g =>
      (q4kMin (off W 4) g).toNat * ((xk sb).bsums (2 * g) + (xk sb).bsums (2 * g + 1))
    let a4 := fmaAt A a4 (sb % 4) (A.mul d dk) (A.ofInt iacc)
    fmaAt A a4 (sb % 4) (A.neg (A.mul dmin dk)) (A.ofInt imins))

/-- `fl_dot_i8k_q6_K`. -/
def dotI8kQ6K (row : ℕ → UInt8) (xk : ℕ → BlkQ8K F) (cols : ℕ) : F :=
  fold4 A (iter (cols / 256) (acc0 A) fun sb a4 =>
    let W := off row (sb * 210)
    let d := A.ofHalf (le16 W 208)
    let dk := (xk sb).d
    let iacc := isum 2 fun h => isum 4 fun s => isum 2 fun k16 =>
      let sc := off W (192 + h * 8)
      let xg := off (xk sb).qs ((h * 4 + s) * 32)
      let idot := isum 16 fun i =>
        let e := k16 * 16 + i
        (q6Span W h s e).toNat * i8 (xg e)
      let bs := (xk sb).bsums (2 * (h * 4 + s) + k16)
      i8 (sc (2 * s + k16)) * (idot - 32 * bs)
    fmaAt A a4 (sb % 4) (A.mul d dk) (A.ofInt iacc))

/-- `fl_dot_i8k_any`. -/
def dotI8kAny (f : Fmt) (row : ℕ → UInt8) (xk : ℕ → BlkQ8K F) (cols : ℕ) : F :=
  match f with
  | .Q4_K => dotI8kQ4K A row xk cols
  | .Q6_K => dotI8kQ6K A row xk cols
  | _ => A.zero

/-- `fl_dot_i8_any`. -/
def dotI8Any (f : Fmt) (row : ℕ → UInt8) (xq : ℕ → BlkQ81) (cols : ℕ) : F :=
  match f with
  | .Q8_0 => dotI8Q80 A row xq cols
  | .Q5_0 => dotI8Q50 A row xq cols
  | .Q4_K => dotI8Q4K A row xq cols
  | .Q6_K => dotI8Q6K A row xq cols
  | .F32 | .IQ2_XXS | .IQ3_XXS => A.zero

/-! ## The activation the blocks stand for -/

/-- Element `e` of the activation, from its q8_1 blocks. -/
def deq81 (xq : ℕ → BlkQ81) (e : ℕ) : F :=
  A.mul (A.ofHalf (xq (e / 32)).d) (A.ofInt (i8 ((xq (e / 32)).qs (e % 32))))

/-- Element `e` of the activation, from its q8_K blocks. -/
def deq8K (xk : ℕ → BlkQ8K F) (e : ℕ) : F :=
  A.mul (xk (e / 256)).d (A.ofInt (i8 ((xk (e / 256)).qs (e % 256))))

/-! ## Element maps -/

/-- The int8 kernels find the nibbles of the canonical decode. -/
theorem q4kNibble_eq (W : ℕ → UInt8) (g : ℕ) {i : ℕ} (hi : i < 32) :
    q4kNibble W g i = q4kWeight W (g * 32 + i) := by
  rcases Nat.mod_two_eq_zero_or_one g with hg | hg
  · have h1 : g * 32 + i = g / 2 * 64 + i := by omega
    rw [h1, q4kWeight_lo _ _ hi]
    simp [q4kNibble, hg]
  · have h1 : g * 32 + i = g / 2 * 64 + (32 + i) := by omega
    rw [h1, q4kWeight_hi _ _ hi]
    simp [q4kNibble, hg]

/-- The int8 kernels compose the six-bit numbers of the canonical decode. -/
theorem q6Span_eq (W : ℕ → UInt8) (h : ℕ) {s e : ℕ} (hs : s < 4) (he : e < 32) :
    q6Span W h s e = q6Weight W (h * 128 + s * 32 + e) := by
  rw [q6Weight_span W h hs he]
  rcases s with _ | _ | _ | _ | s
  · simp [q6Span]
  · simp [q6Span, Nat.add_comm]
  · simp [q6Span]
  · simp [q6Span, Nat.add_comm]
  · omega

end

/-! ## Exact arithmetic -/

section Exact
variable {K : Type} [Field K] (bits : UInt32 → K)

/-- A term added to one of the four accumulators is added to their sum. -/
theorem fold4_fmaAt (a : ℕ → K) {k : ℕ} (hk : k < 4) (p v : K) :
    fold4 (.exact bits) (fmaAt (.exact bits) a k p v) = fold4 (.exact bits) a + p * v := by
  rcases k with _ | _ | _ | _ | k
  · simp [fold4, fmaAt, Function.update]; ring
  · simp [fold4, fmaAt, Function.update]; ring
  · simp [fold4, fmaAt, Function.update]; ring
  · simp [fold4, fmaAt, Function.update]; ring
  · omega

@[simp] theorem fold4_acc0 : fold4 (.exact bits) (acc0 (.exact bits)) = (0 : K) := by
  simp [fold4, acc0]

/-- A loop whose rounds add `g i` to the sum of the accumulators. -/
theorem fold4_iter {n : ℕ} {f : ℕ → (ℕ → K) → ℕ → K} {g : ℕ → K} (a : ℕ → K)
    (h : ∀ i < n, ∀ a, fold4 (.exact bits) (f i a) = fold4 (.exact bits) a + g i) :
    fold4 (.exact bits) (iter n a f) =
      fold4 (.exact bits) a + ∑ i ∈ Finset.range n, g i := by
  rw [iter_hom (fold4 (.exact bits)) (g := fun i s => s + g i) h, iter_sum]

/-- Weights that are affine in an integer, against integer activations with a common scale. -/
theorem sum_affine (n : ℕ) (q x : ℕ → ℤ) (a m dx : K) :
    ∑ i ∈ Finset.range n, (a * q i - m) * (dx * x i) =
      a * dx * ((∑ i ∈ Finset.range n, q i * x i : ℤ) : K) -
        m * dx * ((∑ i ∈ Finset.range n, x i : ℤ) : K) := by
  push_cast
  rw [Finset.mul_sum, Finset.mul_sum, ← Finset.sum_sub_distrib]
  exact Finset.sum_congr rfl fun i _ => by ring

/-- A loop over the blocks of a row whose rounds add what the blocks contribute to the canonical
dot product. -/
theorem fold4_blocks (f : Fmt) (row : ℕ → UInt8) (x : ℕ → K) {cols : ℕ} (hc : blkElems f ∣ cols)
    {body : ℕ → (ℕ → K) → ℕ → K}
    (h : ∀ b < cols / blkElems f, ∀ a, fold4 (.exact bits) (body b a) = fold4 (.exact bits) a +
      ∑ i ∈ Finset.range (blkElems f),
        blkValue (.exact bits) f (off row (b * blkBytes f)) i * x (b * blkElems f + i)) :
    fold4 (.exact bits) (iter (cols / blkElems f) (acc0 (.exact bits)) body) =
      dotRowAny (.exact bits) f row x cols := by
  rw [fold4_iter bits _ h, fold4_acc0, zero_add, dotRowAny_exact bits f row x hc,
    sum_value_blocks bits f row x hc]

theorem deq81_block (xq : ℕ → BlkQ81) (b : ℕ) {i : ℕ} (hi : i < 32) :
    deq81 (.exact bits) xq (b * 32 + i) =
      (Arith.exact bits).ofHalf (xq b).d * ((i8 ((xq b).qs i) : ℤ) : K) := by
  have h1 : (b * 32 + i) / 32 = b := by omega
  have h2 : (b * 32 + i) % 32 = i := by omega
  simp only [deq81, h1, h2, Arith.exact_mul, Arith.exact_ofInt]

/-- Element `i` of group `g` of a superblock of eight blocks. -/
theorem deq81_group (xq : ℕ → BlkQ81) (sb g : ℕ) {i : ℕ} (hi : i < 32) :
    deq81 (.exact bits) xq (sb * 256 + (g * 32 + i)) =
      (Arith.exact bits).ofHalf (xq (sb * 8 + g)).d *
        ((i8 ((xq (sb * 8 + g)).qs i) : ℤ) : K) := by
  have h1 : sb * 256 + (g * 32 + i) = (sb * 8 + g) * 32 + i := by omega
  rw [h1, deq81_block bits xq _ hi]

/-- Element `i` of sixteen of span `s` of half `h`. -/
theorem deq81_span (xq : ℕ → BlkQ81) (sb h s : ℕ) {k i : ℕ} (hk : k < 2) (hi : i < 16) :
    deq81 (.exact bits) xq (sb * 256 + (h * 128 + (s * 32 + (k * 16 + i)))) =
      (Arith.exact bits).ofHalf (xq (sb * 8 + h * 4 + s)).d *
        ((i8 ((xq (sb * 8 + h * 4 + s)).qs (k * 16 + i)) : ℤ) : K) := by
  have h1 : sb * 256 + (h * 128 + (s * 32 + (k * 16 + i))) =
      (sb * 8 + h * 4 + s) * 32 + (k * 16 + i) := by omega
  rw [h1, deq81_block bits xq _ (by omega)]

theorem deq8K_block (xk : ℕ → BlkQ8K K) (b : ℕ) {i : ℕ} (hi : i < 256) :
    deq8K (.exact bits) xk (b * 256 + i) = (xk b).d * ((i8 ((xk b).qs i) : ℤ) : K) := by
  have h1 : (b * 256 + i) / 256 = b := by omega
  have h2 : (b * 256 + i) % 256 = i := by omega
  simp only [deq8K, h1, h2, Arith.exact_mul, Arith.exact_ofInt]

/-! ### The weights as affine functions of integers -/

theorem blkValue_q80 (w : ℕ → UInt8) (i : ℕ) :
    blkValue (.exact bits) .Q8_0 w i =
      (Arith.exact bits).ofHalf (le16 w 0) * ((i8 (w (2 + i)) : ℤ) : K) - 0 := by
  simp [blkValue]

theorem blkValue_q50 (w : ℕ → UInt8) (i : ℕ) :
    blkValue (.exact bits) .Q5_0 w i =
      (Arith.exact bits).ofHalf (le16 w 0) * (((q50Weight w i).toNat : ℤ) : K) -
        (Arith.exact bits).ofHalf (le16 w 0) * 16 := by
  simp [blkValue]
  ring

/-- The scale of group `g` of a Q4_K superblock. -/
def q4kA (w : ℕ → UInt8) (g : ℕ) : K :=
  (Arith.exact bits).ofHalf (le16 w 0) * (((q4kScale (off w 4) g).toNat : ℤ) : K)

/-- The min of group `g` of a Q4_K superblock. -/
def q4kM (w : ℕ → UInt8) (g : ℕ) : K :=
  (Arith.exact bits).ofHalf (le16 w 2) * (((q4kMin (off w 4) g).toNat : ℤ) : K)

theorem blkValue_q4K (w : ℕ → UInt8) (g : ℕ) {i : ℕ} (hi : i < 32) :
    blkValue (.exact bits) .Q4_K w (g * 32 + i) =
      q4kA bits w g * (((q4kWeight w (g * 32 + i)).toNat : ℤ) : K) - q4kM bits w g := by
  have h1 : (g * 32 + i) / 32 = g := by omega
  simp [blkValue, h1, q4kA, q4kM, Arith.ofU8]

/-- The scale of the 16 elements from `16 g` on of a Q6_K superblock. -/
def q6A (w : ℕ → UInt8) (g : ℕ) : K :=
  (Arith.exact bits).ofHalf (le16 w 208) * ((i8 (w (192 + g)) : ℤ) : K)

theorem q6Scale_group (w : ℕ → UInt8) (g : ℕ) {i : ℕ} (hi : i < 16) :
    q6Scale w (g * 16 + i) = i8 (w (192 + g)) := by
  have h1 : 192 + (g * 16 + i) / 128 * 8 + 2 * ((g * 16 + i) % 128 / 32) +
      (g * 16 + i) % 32 / 16 = 192 + g := by omega
  simp only [q6Scale, h1]

theorem blkValue_q6K (w : ℕ → UInt8) (g : ℕ) {i : ℕ} (hi : i < 16) :
    blkValue (.exact bits) .Q6_K w (g * 16 + i) =
      q6A bits w g * (((q6Weight w (g * 16 + i)).toNat : ℤ) : K) - q6A bits w g * 32 := by
  simp only [blkValue, q6Scale_group w g hi, q6A, Arith.exact_mul, Arith.exact_ofInt]
  push_cast
  ring

/-! ### The four formats on q8_1 blocks -/

/-- A Q8_0 block against integer activations. -/
theorem q80_block (W : ℕ → UInt8) (x : ℕ → ℤ) (dx : K) :
    ∑ i ∈ Finset.range 32, blkValue (.exact bits) .Q8_0 W i * (dx * (x i : K)) =
      (Arith.exact bits).ofHalf (le16 W 0) * dx *
        ((∑ i ∈ Finset.range 32, i8 (W (2 + i)) * x i : ℤ) : K) := by
  have hv : ∀ i ∈ Finset.range 32, blkValue (.exact bits) .Q8_0 W i * (dx * (x i : K)) =
      ((Arith.exact bits).ofHalf (le16 W 0) * ((i8 (W (2 + i)) : ℤ) : K) - 0) *
        (dx * (x i : K)) := by
    intro i _
    rw [blkValue_q80]
  rw [Finset.sum_congr rfl hv, sum_affine]
  simp

theorem dotI8Q80_exact (row : ℕ → UInt8) (xq : ℕ → BlkQ81) {cols : ℕ} (hc : 32 ∣ cols) :
    dotI8Q80 (.exact bits) row xq cols =
      dotRowAny (.exact bits) .Q8_0 row (deq81 (.exact bits) xq) cols := by
  apply fold4_blocks bits .Q8_0 row _ hc
  intro b _ a
  rw [fold4_fmaAt bits a (Nat.mod_lt b (by omega))]
  congr 1
  simp only [blkElems, blkBytes]
  rw [Finset.sum_congr rfl fun i hi =>
    congrArg (_ * ·) (deq81_block bits xq b (Finset.mem_range.mp hi)), q80_block]
  simp [idot32, isum_eq]

/-- The low nibbles of a Q5_0 block are its first sixteen elements, the high ones the rest. -/
theorem q50_idot (W : ℕ → UInt8) (x : ℕ → ℤ) :
    (isum 16 fun j =>
      (((off W 6 j &&& (0x0F : UInt8)) |||
          (((le32 W 2 >>> UInt32.ofNat j) <<< 4) &&& 0x10).toUInt8).toNat : ℤ) * x j +
        (((off W 6 j >>> 4) ||| ((le32 W 2 >>> UInt32.ofNat (j + 12)) &&& 0x10).toUInt8).toNat :
          ℤ) * x (16 + j)) =
      ∑ i ∈ Finset.range 32, ((q50Weight W i).toNat : ℤ) * x i := by
  rw [isum_eq, Finset.sum_add_distrib, show (32 : ℕ) = 16 + 16 from rfl, Finset.sum_range_add]
  refine congrArg₂ (· + ·) (Finset.sum_congr rfl ?_) (Finset.sum_congr rfl ?_)
  · intro j hj
    simp [q50Weight, Finset.mem_range.mp hj]
  · intro j _
    simp [q50Weight]

/-- A Q5_0 block against integer activations. -/
theorem q50_block (W : ℕ → UInt8) (x : ℕ → ℤ) (dx : K) :
    ∑ i ∈ Finset.range 32, blkValue (.exact bits) .Q5_0 W i * (dx * (x i : K)) =
      (Arith.exact bits).ofHalf (le16 W 0) * dx *
        ((∑ i ∈ Finset.range 32, ((q50Weight W i).toNat : ℤ) * x i -
          16 * ∑ i ∈ Finset.range 32, x i : ℤ) : K) := by
  have hv : ∀ i ∈ Finset.range 32, blkValue (.exact bits) .Q5_0 W i * (dx * (x i : K)) =
      ((Arith.exact bits).ofHalf (le16 W 0) * (((q50Weight W i).toNat : ℤ) : K) -
        (Arith.exact bits).ofHalf (le16 W 0) * 16) * (dx * (x i : K)) := by
    intro i _
    rw [blkValue_q50]
  rw [Finset.sum_congr rfl hv, sum_affine]
  push_cast
  ring

theorem dotI8Q50_exact (row : ℕ → UInt8) (xq : ℕ → BlkQ81) {cols : ℕ} (hc : 32 ∣ cols) :
    dotI8Q50 (.exact bits) row xq cols =
      dotRowAny (.exact bits) .Q5_0 row (deq81 (.exact bits) xq) cols := by
  apply fold4_blocks bits .Q5_0 row _ hc
  intro b _ a
  rw [fold4_fmaAt bits a (Nat.mod_lt b (by omega))]
  congr 1
  simp only [blkElems, blkBytes]
  set W := off row (b * 22) with hW
  rw [Finset.sum_congr rfl fun i hi =>
      congrArg (_ * ·) (deq81_block bits xq b (Finset.mem_range.mp hi)), q50_block,
    q50_idot W fun i => i8 ((xq b).qs i), isum_eq]
  simp only [Arith.exact_mul, Arith.exact_ofInt]

/-- A group of 32 elements of a Q4_K superblock against integer activations. -/
theorem q4_group (W : ℕ → UInt8) (g : ℕ) (x : ℕ → ℤ) (dx : K) :
    ∑ i ∈ Finset.range 32, blkValue (.exact bits) .Q4_K W (g * 32 + i) * (dx * (x i : K)) =
      q4kA bits W g * dx *
          ((∑ i ∈ Finset.range 32, ((q4kNibble W g i).toNat : ℤ) * x i : ℤ) : K) -
        q4kM bits W g * dx * ((∑ i ∈ Finset.range 32, x i : ℤ) : K) := by
  rw [← sum_affine]
  apply Finset.sum_congr rfl
  intro i hi
  have hi' := Finset.mem_range.mp hi
  rw [blkValue_q4K bits W g hi', q4kNibble_eq W g hi']

theorem dotI8Q4K_exact (row : ℕ → UInt8) (xq : ℕ → BlkQ81) {cols : ℕ} (hc : 256 ∣ cols) :
    dotI8Q4K (.exact bits) row xq cols =
      dotRowAny (.exact bits) .Q4_K row (deq81 (.exact bits) xq) cols := by
  apply fold4_blocks bits .Q4_K row _ hc
  intro sb hsb a
  simp only [blkElems, blkBytes]
  set W := off row (sb * 144) with hW
  rw [sum_range_mul 8 32]
  apply fold4_iter bits a
  intro g _ a
  have hg := Nat.mod_lt g (show 0 < 4 by omega)
  rw [fold4_fmaAt bits _ hg, fold4_fmaAt bits _ hg, add_assoc]
  congr 1
  rw [Finset.sum_congr rfl fun i hi =>
      congrArg (_ * ·) (deq81_group bits xq sb g (Finset.mem_range.mp hi)), q4_group bits W g]
  simp only [isum_eq, q4kA, q4kM, Arith.ofU8, Arith.exact_mul, Arith.exact_neg, Arith.exact_ofInt]
  ring

/-- A group of sixteen elements of a Q6_K superblock against integer activations. -/
theorem q6_group (W : ℕ → UInt8) {h s k : ℕ} (hs : s < 4) (hk : k < 2) (x : ℕ → ℤ) (dx : K) :
    ∑ i ∈ Finset.range 16,
        blkValue (.exact bits) .Q6_K W (h * 128 + (s * 32 + (k * 16 + i))) * (dx * (x i : K)) =
      (Arith.exact bits).ofHalf (le16 W 208) * dx *
        ((i8 (W (192 + h * 8 + (2 * s + k))) *
          ((∑ i ∈ Finset.range 16, ((q6Span W h s (k * 16 + i)).toNat : ℤ) * x i) -
            32 * ∑ i ∈ Finset.range 16, x i) : ℤ) : K) := by
  have hv : ∀ i ∈ Finset.range 16,
      blkValue (.exact bits) .Q6_K W (h * 128 + (s * 32 + (k * 16 + i))) * (dx * (x i : K)) =
        (q6A bits W (h * 8 + (2 * s + k)) * (((q6Span W h s (k * 16 + i)).toNat : ℤ) : K) -
            q6A bits W (h * 8 + (2 * s + k)) * 32) * (dx * (x i : K)) := by
    intro i hi
    have hi' := Finset.mem_range.mp hi
    have h2 : h * 128 + (s * 32 + (k * 16 + i)) = (h * 8 + (2 * s + k)) * 16 + i := by omega
    rw [q6Span_eq W h hs (by omega), Nat.add_assoc, h2, blkValue_q6K bits W _ hi']
  rw [Finset.sum_congr rfl hv, sum_affine]
  simp only [q6A, ← Nat.add_assoc]
  push_cast
  ring

theorem dotI8Q6K_exact (row : ℕ → UInt8) (xq : ℕ → BlkQ81) {cols : ℕ} (hc : 256 ∣ cols) :
    dotI8Q6K (.exact bits) row xq cols =
      dotRowAny (.exact bits) .Q6_K row (deq81 (.exact bits) xq) cols := by
  apply fold4_blocks bits .Q6_K row _ hc
  intro sb hsb a
  simp only [blkElems, blkBytes]
  set W := off row (sb * 210) with hW
  rw [sum_range_mul 2 128]
  apply fold4_iter bits a
  intro h _ a
  rw [sum_range_mul 4 32]
  apply fold4_iter bits a
  intro s hs a
  rw [sum_range_mul 2 16]
  apply fold4_iter bits a
  intro k hk a
  rw [fold4_fmaAt bits _ (Nat.mod_lt _ (by omega))]
  congr 1
  rw [Finset.sum_congr rfl fun i hi =>
      congrArg (_ * ·) (deq81_span bits xq sb h s hk (Finset.mem_range.mp hi)),
    q6_group bits W hs hk]
  simp only [isum_eq, off_apply, Arith.exact_mul, Arith.exact_ofInt]

/-! ### The two formats on q8_K blocks -/

/-- The stored sums are those of the codes, as `ACT_Q8` leaves them. -/
def BlkQ8K.SumsOk {F : Type} (b : BlkQ8K F) : Prop :=
  ∀ g < 16, b.bsums g = ∑ i ∈ Finset.range 16, i8 (b.qs (g * 16 + i))

/-- A group of 32 elements of a Q4_K superblock against a q8_K superblock. -/
theorem q4_group_sums (W : ℕ → UInt8) {b : BlkQ8K K} (hb : b.SumsOk) {g : ℕ} (hg : g < 8) :
    ∑ i ∈ Finset.range 32,
        blkValue (.exact bits) .Q4_K W (g * 32 + i) * (b.d * ((i8 (b.qs (g * 32 + i)) : ℤ) : K)) =
      (Arith.exact bits).ofHalf (le16 W 0) * b.d *
          (((q4kScale (off W 4) g).toNat * ∑ i ∈ Finset.range 32,
            ((q4kNibble W g i).toNat : ℤ) * i8 (b.qs (g * 32 + i)) : ℤ) : K) -
        (Arith.exact bits).ofHalf (le16 W 2) * b.d *
          (((q4kMin (off W 4) g).toNat * (b.bsums (2 * g) + b.bsums (2 * g + 1)) : ℤ) : K) := by
  have hbs : b.bsums (2 * g) + b.bsums (2 * g + 1) =
      ∑ i ∈ Finset.range 32, i8 (b.qs (g * 32 + i)) := by
    rw [hb _ (by omega), hb _ (by omega), show (32 : ℕ) = 16 + 16 from rfl,
      Finset.sum_range_add]
    simp only [show 2 * g * 16 = g * (16 + 16) by omega,
      show (2 * g + 1) * 16 = g * (16 + 16) + 16 by omega, Nat.add_assoc]
  rw [q4_group bits W g fun i => i8 (b.qs (g * 32 + i)), hbs]
  simp only [q4kA, q4kM]
  push_cast
  ring

theorem dotI8kQ4K_exact (row : ℕ → UInt8) (xk : ℕ → BlkQ8K K) {cols : ℕ} (hc : 256 ∣ cols)
    (hk : ∀ b < cols / 256, (xk b).SumsOk) :
    dotI8kQ4K (.exact bits) row xk cols =
      dotRowAny (.exact bits) .Q4_K row (deq8K (.exact bits) xk) cols := by
  apply fold4_blocks bits .Q4_K row _ hc
  intro sb hsb a
  simp only [blkElems, blkBytes]
  set W := off row (sb * 144) with hW
  have h4 := Nat.mod_lt sb (show 0 < 4 by omega)
  rw [fold4_fmaAt bits _ h4, fold4_fmaAt bits _ h4, add_assoc]
  congr 1
  rw [Finset.sum_congr rfl fun i hi =>
      congrArg (_ * ·) (deq8K_block bits xk sb (Finset.mem_range.mp hi)), sum_range_mul 8 32,
    Finset.sum_congr rfl fun g hg => q4_group_sums bits W (hk sb hsb) (Finset.mem_range.mp hg),
    Finset.sum_sub_distrib, ← Finset.mul_sum, ← Finset.mul_sum]
  simp only [isum_eq, off_apply, Arith.exact_mul, Arith.exact_neg, Arith.exact_ofInt]
  push_cast
  ring

/-- Sixteen elements of a Q6_K superblock against a q8_K superblock. -/
theorem q6_group_sums (W : ℕ → UInt8) {b : BlkQ8K K} (hb : b.SumsOk) {h s k : ℕ} (hh : h < 2)
    (hs : s < 4) (hk : k < 2) :
    ∑ i ∈ Finset.range 16, blkValue (.exact bits) .Q6_K W (h * 128 + (s * 32 + (k * 16 + i))) *
        (b.d * ((i8 (b.qs ((h * 4 + s) * 32 + (k * 16 + i))) : ℤ) : K)) =
      (Arith.exact bits).ofHalf (le16 W 208) * b.d *
        ((i8 (W (192 + h * 8 + (2 * s + k))) *
          ((∑ i ∈ Finset.range 16, ((q6Span W h s (k * 16 + i)).toNat : ℤ) *
              i8 (b.qs ((h * 4 + s) * 32 + (k * 16 + i)))) -
            32 * b.bsums (2 * (h * 4 + s) + k)) : ℤ) : K) := by
  have hbs : b.bsums (2 * (h * 4 + s) + k) =
      ∑ i ∈ Finset.range 16, i8 (b.qs ((h * 4 + s) * 32 + (k * 16 + i))) := by
    rw [hb _ (by omega)]
    simp only [show (2 * (h * 4 + s) + k) * 16 = (h * 4 + s) * 32 + k * 16 by omega,
      Nat.add_assoc]
  rw [hbs]
  exact q6_group bits W hs hk (fun i => i8 (b.qs ((h * 4 + s) * 32 + (k * 16 + i)))) b.d

/-- Element `i` of a group of sixteen in a q8_K superblock. -/
theorem deq8K_group (xk : ℕ → BlkQ8K K) (sb : ℕ) {h s k i : ℕ} (hh : h < 2) (hs : s < 4)
    (hk : k < 2) (hi : i < 16) :
    deq8K (.exact bits) xk (sb * 256 + (h * 128 + (s * 32 + (k * 16 + i)))) =
      (xk sb).d * ((i8 ((xk sb).qs ((h * 4 + s) * 32 + (k * 16 + i))) : ℤ) : K) := by
  have h1 : h * 128 + (s * 32 + (k * 16 + i)) = (h * 4 + s) * 32 + (k * 16 + i) := by omega
  rw [deq8K_block bits xk sb (by omega), h1]

theorem dotI8kQ6K_exact (row : ℕ → UInt8) (xk : ℕ → BlkQ8K K) {cols : ℕ} (hc : 256 ∣ cols)
    (hk : ∀ b < cols / 256, (xk b).SumsOk) :
    dotI8kQ6K (.exact bits) row xk cols =
      dotRowAny (.exact bits) .Q6_K row (deq8K (.exact bits) xk) cols := by
  apply fold4_blocks bits .Q6_K row _ hc
  intro sb hsb a
  simp only [blkElems, blkBytes]
  set W := off row (sb * 210) with hW
  rw [fold4_fmaAt bits _ (Nat.mod_lt sb (show 0 < 4 by omega))]
  congr 1
  simp only [isum_eq, Arith.exact_mul, Arith.exact_ofInt]
  push_cast
  rw [sum_range_mul 2 128, Finset.mul_sum]
  refine Finset.sum_congr rfl fun h hh => ?_
  rw [sum_range_mul 4 32, Finset.mul_sum]
  refine Finset.sum_congr rfl fun s hs => ?_
  rw [sum_range_mul 2 16, Finset.mul_sum]
  refine Finset.sum_congr rfl fun k hk' => ?_
  have hh' := Finset.mem_range.mp hh
  have hs' := Finset.mem_range.mp hs
  have hk'' := Finset.mem_range.mp hk'
  rw [Finset.sum_congr rfl fun i hi =>
      congrArg (_ * ·) (deq8K_group bits xk sb hh' hs' hk'' (Finset.mem_range.mp hi)),
    q6_group_sums bits W (hk sb hsb) hh' hs' hk'']
  simp only [off_apply]
  push_cast
  ring

end Exact
end FastLlm
