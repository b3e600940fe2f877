import FastLlm.Runtime.Int8Dot
import Mathlib.Data.UInt
import Mathlib.Algebra.Order.Floor.Ring
import Mathlib.Algebra.Order.Archimedean.Basic
import Mathlib.Algebra.Order.BigOperators.Group.Finset
import Mathlib.Data.Rat.Floor

/-!
# ACT_Q8

The task that writes the q8_1 and q8_K blocks of an activation column, in exact arithmetic.  The
conversion of a scale to half precision is left open.  A code is at most 127 in absolute value, so
it survives its byte and sixteen of them survive an `int16_t`: the stored sums are those of the
stored codes.  With that the int8 reference dots on the written blocks are the canonical dots on
the activation the blocks stand for (`dotI8_actQ8`).

## Main definitions

* `roundf`, `toInt` — rounding and conversion to `int`.
* `quantizeQ81Block`, `quantizeQ8KBlock` — the quantizers.
* `quantizeActQ8` — the task.
-/

namespace FastLlm

section
variable {K : Type} [Field K] [LinearOrder K] [FloorRing K]

/-- `roundf`: to the nearest integer, halves away from zero. -/
def roundf (x : K) : K := if 0 ≤ x then ⌊x + 1 / 2⌋ else -⌊-x + 1 / 2⌋

/-- `(int)x`. -/
def toInt (x : K) : ℤ := if 0 ≤ x then ⌊x⌋ else -⌊-x⌋

/-- `(int8_t)x`. -/
def toI8 (x : K) : UInt8 := UInt8.ofInt (toInt x)

/-- The largest absolute value of a block. -/
def amax (n : ℕ) (x : ℕ → K) : K := iter n 0 fun i m => if m < |x i| then |x i| else m

instance atLeastTwo127 : Nat.AtLeastTwo 127 := ⟨by decide⟩

/-- The factor of the codes of a block. -/
def quantInv (m : K) : K := if 0 < m then 127 / m else 0

/-- The code of `v`, before its conversion. -/
def quantCode (id v : K) : K :=
  let q := roundf (v * id)
  let q := if 127 < q then 127 else q
  if q < -127 then -127 else q

/-- `fl_quantize_q8_1_block`. -/
def quantizeQ81Block (toHalf : K → UInt16) (x : ℕ → K) : BlkQ81 :=
  let m := amax 32 x
  let d := m / 127
  let id := quantInv m
  let sum := isum 32 fun i => toInt (quantCode id (x i))
  { d := toHalf d
    s := toHalf (d * sum)
    qs := fun i => toI8 (quantCode id (x i)) }

/-- `fl_quantize_q8_K_block`. -/
def quantizeQ8KBlock (x : ℕ → K) : BlkQ8K K :=
  let m := amax 256 x
  let id := quantInv m
  { d := m / 127
    bsums := fun g => (isum 16 fun i => toInt (quantCode id (x (g * 16 + i)))).bmod (2 ^ 16)
    qs := fun i => toI8 (quantCode id (x i)) }

/-- The appendices of an activation column. -/
structure ActAppendix (F : Type) where
  q81 : ℕ → BlkQ81
  q8K : ℕ → BlkQ8K F

/-- `fl_exec_act_q8`.  The blocks past the end keep what they held. -/
def quantizeActQ8 (toHalf : K → UInt16) (x : ℕ → K) (cols : ℕ) (o : ActAppendix K) :
    ActAppendix K where
  q81 := iter (cols / 32) o.q81 fun b o =>
    Function.update o b (quantizeQ81Block toHalf (off x (b * 32)))
  q8K := iter (cols / 256) o.q8K fun sb o =>
    Function.update o sb (quantizeQ8KBlock (off x (sb * 256)))

/-- The block of an activation that the task quantizes. -/
theorem quantizeActQ8_q81 (toHalf : K → UInt16) (x : ℕ → K) {cols b : ℕ} (hb : b < cols / 32)
    (o : ActAppendix K) :
    (quantizeActQ8 toHalf x cols o).q81 b = quantizeQ81Block toHalf (off x (b * 32)) := by
  simp only [quantizeActQ8, iter_update, hb, if_true]

theorem quantizeActQ8_q8K (toHalf : K → UInt16) (x : ℕ → K) {cols b : ℕ} (hb : b < cols / 256)
    (o : ActAppendix K) :
    (quantizeActQ8 toHalf x cols o).q8K b = quantizeQ8KBlock (off x (b * 256)) := by
  simp only [quantizeActQ8, iter_update, hb, if_true]

end

/-! ## Codes -/

/-- A small integer survives its conversion to a byte. -/
theorem i8_ofInt {z : ℤ} (h1 : -127 ≤ z) (h2 : z ≤ 127) : i8 (UInt8.ofInt z) = z := by
  have h3 : (UInt8.ofInt z).toNat = (z % 256).toNat := by
    rw [UInt8.ofInt, UInt8.toNat_ofNat']
    omega
  simp only [i8, h3]
  split <;> omega

section
variable {K : Type} [Field K] [LinearOrder K] [IsStrictOrderedRing K] [FloorRing K]

theorem quantCode_bounds (id v : K) : -127 ≤ quantCode id v ∧ quantCode id v ≤ 127 := by
  simp only [quantCode]
  split_ifs with h1 h2 h2
  · constructor <;> linarith
  · constructor <;> linarith
  · constructor <;> linarith
  · exact ⟨not_lt.mp h2, not_lt.mp h1⟩

theorem toInt_bounds {q : K} (h1 : -127 ≤ q) (h2 : q ≤ 127) : -127 ≤ toInt q ∧ toInt q ≤ 127 := by
  have h127 : ⌊(127 : K)⌋ = 127 := by exact_mod_cast Int.floor_intCast (127 : ℤ)
  rw [toInt]
  split_ifs with h
  · have hlo : 0 ≤ ⌊q⌋ := Int.floor_nonneg.mpr h
    have hhi : ⌊q⌋ ≤ ⌊(127 : K)⌋ := Int.floor_mono h2
    omega
  · have hlo : 0 ≤ ⌊-q⌋ := Int.floor_nonneg.mpr (by linarith)
    have hhi : ⌊-q⌋ ≤ ⌊(127 : K)⌋ := Int.floor_mono (by linarith)
    omega

/-- The stored code is the code. -/
theorem i8_toI8_quantCode (id v : K) : i8 (toI8 (quantCode id v)) = toInt (quantCode id v) := by
  obtain ⟨h1, h2⟩ := quantCode_bounds id v
  obtain ⟨h3, h4⟩ := toInt_bounds h1 h2
  exact i8_ofInt h3 h4

/-- The sum of sixteen codes fits `int16_t`. -/
theorem quantizeQ8KBlock_sumsOk (x : ℕ → K) : (quantizeQ8KBlock x).SumsOk := by
  intro g _
  set id := quantInv (amax 256 x) with hid
  set c : ℕ → ℤ := fun i => toInt (quantCode id (x (g * 16 + i))) with hc
  have hb : ∀ i ∈ Finset.range 16, |c i| ≤ 127 := by
    intro i _
    obtain ⟨h1, h2⟩ := quantCode_bounds id (x (g * 16 + i))
    exact abs_le.mpr (toInt_bounds h1 h2)
  have habs : |∑ i ∈ Finset.range 16, c i| ≤ 16 * 127 := by
    calc |∑ i ∈ Finset.range 16, c i| ≤ ∑ i ∈ Finset.range 16, |c i| := Finset.abs_sum_le_sum_abs _ _
      _ ≤ ∑ _i ∈ Finset.range 16, 127 := Finset.sum_le_sum hb
      _ = 16 * 127 := by simp
  obtain ⟨h1, h2⟩ := abs_le.mp habs
  have hsum : (quantizeQ8KBlock x).bsums g = (∑ i ∈ Finset.range 16, c i).bmod (2 ^ 16) := by
    simp only [quantizeQ8KBlock, isum_eq, hc, hid]
  have hq : ∀ i ∈ Finset.range 16, i8 ((quantizeQ8KBlock x).qs (g * 16 + i)) = c i := by
    intro i _
    exact i8_toI8_quantCode id (x (g * 16 + i))
  rw [hsum, Finset.sum_congr rfl hq, Int.bmod_eq_of_le (by omega) (by omega)]

end

/-! ## Quantization error -/

section
variable {K : Type} [Field K] [LinearOrder K]

theorem amax_succ (n : ℕ) (x : ℕ → K) : amax (n + 1) x = max (amax n x) |x n| := by
  rw [amax, iter_succ, ← amax, max_def]
  split_ifs with h1 h2 h2
  · rfl
  · exact absurd h1.le h2
  · exact le_antisymm h2 (not_lt.mp h1)
  · rfl

theorem amax_nonneg (n : ℕ) (x : ℕ → K) : 0 ≤ amax n x := by
  induction n with
  | zero => rw [amax, iter_zero]
  | succ n ih =>
    rw [amax_succ]
    exact ih.trans (le_max_left _ _)

theorem abs_le_amax {n i : ℕ} (x : ℕ → K) (hi : i < n) : |x i| ≤ amax n x := by
  induction n with
  | zero => omega
  | succ n ih =>
    rw [amax_succ]
    rcases Nat.lt_succ_iff_lt_or_eq.mp hi with hlt | rfl
    · exact (ih hlt).trans (le_max_left _ _)
    · exact le_max_right _ _

theorem amax_le {n : ℕ} {x : ℕ → K} {c : K} (hc : 0 ≤ c) (hx : ∀ i < n, |x i| ≤ c) :
    amax n x ≤ c := by
  induction n with
  | zero => rwa [amax, iter_zero]
  | succ n ih =>
    rw [amax_succ]
    apply max_le
    · exact ih fun i hi => hx i (by omega)
    · exact hx n (by omega)

variable [IsStrictOrderedRing K] [FloorRing K]

/-- Rounding gives an integer that is at most one half away. -/
theorem roundf_spec (x : K) : ∃ z : ℤ, roundf x = z ∧ |(z : K) - x| ≤ 1 / 2 := by
  rw [roundf]
  split_ifs
  · have h1 := Int.floor_le (x + 1 / 2)
    have h2 := Int.lt_floor_add_one (x + 1 / 2)
    exact ⟨_, rfl, abs_le.mpr ⟨by linarith, by linarith⟩⟩
  · have h1 := Int.floor_le (-x + 1 / 2)
    have h2 := Int.lt_floor_add_one (-x + 1 / 2)
    refine ⟨-⌊-x + 1 / 2⌋, by push_cast; rfl, abs_le.mpr ⟨?_, ?_⟩⟩
    · push_cast
      linarith
    · push_cast
      linarith

theorem toInt_intCast (z : ℤ) : toInt (z : K) = z := by
  rw [toInt]
  split_ifs
  · exact Int.floor_intCast z
  · rw [← Int.cast_neg, Int.floor_intCast, neg_neg]

/-- The code of a value within the range of the block is at most one half away from it. -/
theorem toInt_quantCode_sub {id v : K} (h : |v * id| ≤ 127) :
    |((toInt (quantCode id v) : ℤ) : K) - v * id| ≤ 1 / 2 := by
  obtain ⟨z, hz, herr⟩ := roundf_spec (v * id)
  obtain ⟨h1, h2⟩ := abs_le.mp h
  obtain ⟨h3, h4⟩ := abs_le.mp herr
  -- rounding stays within the range, so that nothing is clamped
  have hlo : (-128 : ℤ) < z := by exact_mod_cast (by linarith : (-128 : K) < z)
  have hhi : z < (128 : ℤ) := by exact_mod_cast (by linarith : (z : K) < 128)
  have hlo' : ¬ (z : K) < -127 := by exact_mod_cast (by omega : ¬ z < -127)
  have hhi' : ¬ (127 : K) < z := by exact_mod_cast (by omega : ¬ 127 < z)
  have hcode : quantCode id v = z := by
    simp only [quantCode, hz]
    rw [if_neg hhi', if_neg hlo']
  rw [hcode, toInt_intCast]
  exact herr

/-- The code of an element of a block is off by at most half a step. -/
theorem quantCode_error {n i : ℕ} (x : ℕ → K) (hi : i < n) :
    |amax n x / 127 * ((toInt (quantCode (quantInv (amax n x)) (x i)) : ℤ) : K) - x i| ≤
      amax n x / 254 := by
  have hle := abs_le_amax x hi
  have hnonneg := amax_nonneg n x
  set m := amax n x
  rcases hnonneg.eq_or_lt with h0 | hpos
  · have hx : x i = 0 := abs_nonpos_iff.mp (hle.trans h0.ge)
    simp [hx, ← h0]
  · have hne : m ≠ 0 := hpos.ne'
    have hid : quantInv m = 127 / m := if_pos hpos
    have hrange : |x i * quantInv m| ≤ 127 := by
      rw [hid, abs_mul, abs_of_pos (div_pos (by norm_num) hpos)]
      calc |x i| * (127 / m) ≤ m * (127 / m) :=
            mul_le_mul_of_nonneg_right hle (div_nonneg (by norm_num) hpos.le)
        _ = 127 := by field_simp
    have hcode := toInt_quantCode_sub hrange
    set c : K := ((toInt (quantCode (quantInv m) (x i)) : ℤ) : K)
    have hfactor : m / 127 * c - x i = m / 127 * (c - x i * quantInv m) := by
      rw [hid]
      field_simp
    rw [hfactor, abs_mul, abs_of_pos (div_pos hpos (by norm_num))]
    calc m / 127 * |c - x i * quantInv m| ≤ m / 127 * (1 / 2) :=
          mul_le_mul_of_nonneg_left hcode (div_nonneg hpos.le (by norm_num))
      _ = m / 254 := by ring

/-- An element of a block is off by at most a 254-th of the largest one. -/
theorem quantizeQ8KBlock_error (x : ℕ → K) {i : ℕ} (hi : i < 256) :
    |(quantizeQ8KBlock x).d * ((i8 ((quantizeQ8KBlock x).qs i) : ℤ) : K) - x i| ≤
      amax 256 x / 254 := by
  simp only [quantizeQ8KBlock, i8_toI8_quantCode]
  exact quantCode_error x hi

end

/-! ## The task and the dots -/

section
variable {K : Type} [Field K] [LinearOrder K] [IsStrictOrderedRing K] [FloorRing K]

/-- Every q8_K block that the task writes has the sums of its codes. -/
theorem execActQ8_sumsOk (toHalf : K → UInt16) (x : ℕ → K) (cols : ℕ) (o : ActAppendix K) :
    ∀ b < cols / 256, ((quantizeActQ8 toHalf x cols o).q8K b).SumsOk := by
  intro b hb
  rw [quantizeActQ8_q8K toHalf x hb]
  exact quantizeQ8KBlock_sumsOk _

/-- In exact arithmetic the int8 reference dots on the blocks that `ACT_Q8` wrote are the canonical
dots with the activation these blocks stand for. -/
theorem dotI8_actQ8 (bits : UInt32 → K) (toHalf : K → UInt16) (row : ℕ → UInt8) (x : ℕ → K)
    (cols : ℕ) (o : ActAppendix K) :
    let o' := quantizeActQ8 toHalf x cols o
    let x81 := deq81 (.exact bits) o'.q81
    let x8K := deq8K (.exact bits) o'.q8K
    (32 ∣ cols →
      dotI8Q80 (.exact bits) row o'.q81 cols = dotRowAny (.exact bits) .Q8_0 row x81 cols ∧
      dotI8Q50 (.exact bits) row o'.q81 cols = dotRowAny (.exact bits) .Q5_0 row x81 cols) ∧
    (256 ∣ cols →
      dotI8Q4K (.exact bits) row o'.q81 cols = dotRowAny (.exact bits) .Q4_K row x81 cols ∧
      dotI8Q6K (.exact bits) row o'.q81 cols = dotRowAny (.exact bits) .Q6_K row x81 cols ∧
      dotI8kQ4K (.exact bits) row o'.q8K cols = dotRowAny (.exact bits) .Q4_K row x8K cols ∧
      dotI8kQ6K (.exact bits) row o'.q8K cols = dotRowAny (.exact bits) .Q6_K row x8K cols) := by
  have hs := execActQ8_sumsOk toHalf x cols o
  refine ⟨fun hc => ⟨?_, ?_⟩, fun hc => ⟨?_, ?_, ?_, ?_⟩⟩
  · exact dotI8Q80_exact bits row _ hc
  · exact dotI8Q50_exact bits row _ hc
  · exact dotI8Q4K_exact bits row _ hc
  · exact dotI8Q6K_exact bits row _ hc
  · exact dotI8kQ4K_exact bits row _ hc hs
  · exact dotI8kQ6K_exact bits row _ hc hs

end

/-- The six dots on a superblock of the activation `0, 1, …, 255`, over the rationals. -/
theorem dotI8_actQ8_ramp :
    let bits : UInt32 → ℚ := fun w => w.toNat
    let row : ℕ → UInt8 := UInt8.ofNat
    let o' := quantizeActQ8 (fun _ => 0x3C00) (fun i => (i : ℚ)) 256
      ⟨fun _ => ⟨0, 0, 0⟩, fun _ => ⟨0, 0, 0⟩⟩
    let x81 := deq81 (.exact bits) o'.q81
    let x8K := deq8K (.exact bits) o'.q8K
    (dotI8Q80 (.exact bits) row o'.q81 256 = dotRowAny (.exact bits) .Q8_0 row x81 256 ∧
      dotI8Q50 (.exact bits) row o'.q81 256 = dotRowAny (.exact bits) .Q5_0 row x81 256) ∧
    dotI8Q4K (.exact bits) row o'.q81 256 = dotRowAny (.exact bits) .Q4_K row x81 256 ∧
    dotI8Q6K (.exact bits) row o'.q81 256 = dotRowAny (.exact bits) .Q6_K row x81 256 ∧
    dotI8kQ4K (.exact bits) row o'.q8K 256 = dotRowAny (.exact bits) .Q4_K row x8K 256 ∧
    dotI8kQ6K (.exact bits) row o'.q8K 256 = dotRowAny (.exact bits) .Q6_K row x8K 256 := by
  intro bits row o' x81 x8K
  have h := dotI8_actQ8 bits (fun _ => 0x3C00) row (fun i => (i : ℚ)) 256
    ⟨fun _ => ⟨0, 0, 0⟩, fun _ => ⟨0, 0, 0⟩⟩
  exact ⟨h.1 (by decide), h.2 (by decide)⟩

end FastLlm
