import FastLlm.Lib.Bytes
import Mathlib.Algebra.Order.BigOperators.Group.Finset
import Mathlib.Algebra.Order.Ring.Abs

/-!
# Arm vector registers

The intrinsics that integer dot products are written with, lane by lane.  A register of bytes is
a function of the lane number, and so is a register of 32-bit lanes, which hold integers and wrap
around.  Only the lanes that a register has are meaningful.

A dot product of up to thirty-two pairs of bytes is far from wrapping around, so that the
accumulating instructions give exact sums (`vaddvq_vdotq`, `vmmlaq_four`).

## Main definitions

* `vdotqS32`, `vmmlaqS32`, `vaddvqS32` — products of signed bytes, summed.
* `vandqU8`, `vorrqU8`, `vshrqNU8`, `vshlqNU8` — bitwise operations on bytes.
* `vgetLowS8`, `vgetHighS8`, `vcombineS8` — halves of a register.
* `byteDot` — the sum the instructions compute.
-/

namespace FastLlm.Neon

/-- The value of a 32-bit lane. -/
def i32 (z : ℤ) : ℤ := z.bmod (2 ^ 32)

/-- `vld1q_s8`, `vld1q_u8`. -/
def vld1q (p : ℕ → UInt8) : ℕ → UInt8 := p

/-- `vdupq_n_s32`. -/
def vdupqNS32 (z : ℤ) : ℕ → ℤ := fun _ => z

/-- `vdupq_n_s8`, `vdupq_n_u8`. -/
def vdupqN8 (b : UInt8) : ℕ → UInt8 := fun _ => b

/-- `vandq_u8`. -/
def vandqU8 (a b : ℕ → UInt8) : ℕ → UInt8 := fun i => a i &&& b i

/-- `vorrq_u8`. -/
def vorrqU8 (a b : ℕ → UInt8) : ℕ → UInt8 := fun i => a i ||| b i

/-- `vshrq_n_u8`. -/
def vshrqNU8 (a : ℕ → UInt8) (n : UInt8) : ℕ → UInt8 := fun i => a i >>> n

/-- `vshlq_n_u8`. -/
def vshlqNU8 (a : ℕ → UInt8) (n : UInt8) : ℕ → UInt8 := fun i => a i <<< n

/-- `vget_low_s8`. -/
def vgetLowS8 (a : ℕ → UInt8) : ℕ → UInt8 := a

/-- `vget_high_s8`. -/
def vgetHighS8 (a : ℕ → UInt8) : ℕ → UInt8 := fun i => a (8 + i)

/-- `vcombine_s8`. -/
def vcombineS8 (lo hi : ℕ → UInt8) : ℕ → UInt8 := fun i => if i < 8 then lo i else hi (i - 8)

/-- The sum of the products of `n` pairs of signed bytes. -/
def byteDot (n : ℕ) (a b : ℕ → UInt8) : ℤ := ∑ i ∈ Finset.range n, i8 (a i) * i8 (b i)

/-- `vdotq_s32`: four products to each lane. -/
def vdotqS32 (acc : ℕ → ℤ) (a b : ℕ → UInt8) : ℕ → ℤ := fun l =>
  i32 (acc l + byteDot 4 (fun k => a (4 * l + k)) fun k => b (4 * l + k))

/-- `vmmlaq_s32`: to lane `2 i + j` the products of row `i` of one matrix and row `j` of the
other, both of two rows of eight bytes. -/
def vmmlaqS32 (acc : ℕ → ℤ) (a b : ℕ → UInt8) : ℕ → ℤ := fun l =>
  i32 (acc l + byteDot 8 (fun k => a (8 * (l / 2) + k)) fun k => b (8 * (l % 2) + k))

/-- `vaddvq_s32`. -/
def vaddvqS32 (v : ℕ → ℤ) : ℤ := i32 (v 0 + v 1 + v 2 + v 3)

/-! ## No wrap around -/

theorem i32_of_le {z : ℤ} (h1 : -2 ^ 30 ≤ z) (h2 : z ≤ 2 ^ 30) : i32 z = z :=
  Int.bmod_eq_of_le (by omega) (by omega)

theorem abs_i8_le (b : UInt8) : |i8 b| ≤ 128 := by
  have hb := b.toNat_lt
  rw [i8, abs_le]
  split_ifs
  · omega
  · omega

theorem abs_byteDot_le (n : ℕ) (a b : ℕ → UInt8) : |byteDot n a b| ≤ n * 2 ^ 14 := by
  have hterm : ∀ i ∈ Finset.range n, |i8 (a i) * i8 (b i)| ≤ 2 ^ 14 := by
    intro i _
    rw [abs_mul]
    calc |i8 (a i)| * |i8 (b i)| ≤ 128 * 128 :=
          mul_le_mul (abs_i8_le _) (abs_i8_le _) (abs_nonneg _) (by omega)
      _ = 2 ^ 14 := by norm_num
  calc |byteDot n a b| ≤ ∑ i ∈ Finset.range n, |i8 (a i) * i8 (b i)| :=
        Finset.abs_sum_le_sum_abs _ _
    _ ≤ ∑ _i ∈ Finset.range n, 2 ^ 14 := Finset.sum_le_sum hterm
    _ = n * 2 ^ 14 := by rw [Finset.sum_const, Finset.card_range, nsmul_eq_mul]

theorem byteDot_bounds (n : ℕ) (a b : ℕ → UInt8) :
    -(n * 2 ^ 14) ≤ byteDot n a b ∧ byteDot n a b ≤ n * 2 ^ 14 :=
  abs_le.mp (abs_byteDot_le n a b)

theorem byteDot_add (m n : ℕ) (a b : ℕ → UInt8) :
    byteDot (m + n) a b = byteDot m a b + byteDot n (fun i => a (m + i)) fun i => b (m + i) :=
  Finset.sum_range_add _ m n

/-- The four lanes of a `vdotq` are the sixteen products. -/
theorem byteDot_lanes (a b : ℕ → UInt8) :
    byteDot 4 (fun k => a (4 * 0 + k)) (fun k => b (4 * 0 + k)) +
      byteDot 4 (fun k => a (4 * 1 + k)) (fun k => b (4 * 1 + k)) +
      byteDot 4 (fun k => a (4 * 2 + k)) (fun k => b (4 * 2 + k)) +
      byteDot 4 (fun k => a (4 * 3 + k)) (fun k => b (4 * 3 + k)) = byteDot 16 a b := by
  rw [byteDot_add 12 4 a b, byteDot_add 8 4 a b, byteDot_add 4 4 a b]
  simp only [Nat.mul_zero, Nat.zero_add, Nat.mul_one, Nat.reduceMul]

theorem vdotq_zero (a b : ℕ → UInt8) (l : ℕ) :
    vdotqS32 (vdupqNS32 0) a b l = byteDot 4 (fun k => a (4 * l + k)) fun k => b (4 * l + k) := by
  have h := byteDot_bounds 4 (fun k => a (4 * l + k)) fun k => b (4 * l + k)
  rw [vdotqS32, vdupqNS32, zero_add, i32_of_le (by omega) (by omega)]

/-- Sixteen products. -/
theorem vaddvq_vdotq (a b : ℕ → UInt8) :
    vaddvqS32 (vdotqS32 (vdupqNS32 0) a b) = byteDot 16 a b := by
  have h := byteDot_bounds 16 a b
  rw [vaddvqS32]
  simp only [vdotq_zero]
  rw [byteDot_lanes, i32_of_le (by omega) (by omega)]

/-- Thirty-two products. -/
theorem vaddvq_vdotq_vdotq (a a' b b' : ℕ → UInt8) :
    vaddvqS32 (vdotqS32 (vdotqS32 (vdupqNS32 0) a b) a' b') = byteDot 16 a b + byteDot 16 a' b' := by
  have hlane : ∀ l, vdotqS32 (vdotqS32 (vdupqNS32 0) a b) a' b' l =
      byteDot 4 (fun k => a (4 * l + k)) (fun k => b (4 * l + k)) +
        byteDot 4 (fun k => a' (4 * l + k)) fun k => b' (4 * l + k) := by
    intro l
    have h := byteDot_bounds 4 (fun k => a (4 * l + k)) fun k => b (4 * l + k)
    have h' := byteDot_bounds 4 (fun k => a' (4 * l + k)) fun k => b' (4 * l + k)
    rw [vdotqS32, vdotq_zero, i32_of_le (by omega) (by omega)]
  have h := byteDot_bounds 16 a b
  have h' := byteDot_bounds 16 a' b'
  have hsum := byteDot_lanes a b
  have hsum' := byteDot_lanes a' b'
  rw [vaddvqS32]
  simp only [hlane]
  rw [i32_of_le (by omega) (by omega)]
  omega

/-- A matrix product adds the product of a row and a column to its lane, if that is small. -/
theorem vmmlaq_lane {acc : ℕ → ℤ} (a b : ℕ → UInt8) {i j : ℕ} {z : ℤ} (hj : j < 2)
    (hacc : acc (2 * i + j) = z) (h1 : -2 ^ 29 ≤ z) (h2 : z ≤ 2 ^ 29) :
    vmmlaqS32 acc a b (2 * i + j) =
      z + byteDot 8 (fun k => a (8 * i + k)) fun k => b (8 * j + k) := by
  have hi : (2 * i + j) / 2 = i := by omega
  have hmod : (2 * i + j) % 2 = j := by omega
  have h := byteDot_bounds 8 (fun k => a (8 * i + k)) fun k => b (8 * j + k)
  rw [vmmlaqS32, hi, hmod, hacc, i32_of_le (by omega) (by omega)]

/-- Four matrix products accumulate the products of four pieces of two rows and two columns. -/
theorem vmmlaq_four (a b : ℕ → ℕ → UInt8) (i : ℕ) {j : ℕ} (hj : j < 2) :
    vmmlaqS32 (vmmlaqS32 (vmmlaqS32 (vmmlaqS32 (vdupqNS32 0) (a 0) (b 0)) (a 1) (b 1)) (a 2) (b 2))
      (a 3) (b 3) (2 * i + j) =
      ∑ c ∈ Finset.range 4, byteDot 8 (fun k => a c (8 * i + k)) fun k => b c (8 * j + k) := by
  have h (c : ℕ) := byteDot_bounds 8 (fun k => a c (8 * i + k)) fun k => b c (8 * j + k)
  have h0 := h 0
  have h1 := h 1
  have h2 := h 2
  have hzero : vdupqNS32 0 (2 * i + j) = 0 := rfl
  have hlane0 := vmmlaq_lane (a 0) (b 0) hj hzero (by omega) (by omega)
  have hlane1 := vmmlaq_lane (a 1) (b 1) hj hlane0 (by omega) (by omega)
  have hlane2 := vmmlaq_lane (a 2) (b 2) hj hlane1 (by omega) (by omega)
  have hlane3 := vmmlaq_lane (a 3) (b 3) hj hlane2 (by omega) (by omega)
  rw [hlane3]
  simp only [Finset.sum_range_succ, Finset.sum_range_zero]

end FastLlm.Neon
