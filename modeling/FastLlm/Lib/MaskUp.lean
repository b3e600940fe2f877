import Mathlib.Order.Bounds.Defs
import Mathlib.Algebra.Order.Ring.Abs
import Mathlib.Algebra.Order.Ring.Int
import Mathlib.Algebra.GroupWithZero.Divisibility
import Mathlib.Data.Nat.Cast.Order.Ring

/-!
# Rounding up with a mask

Code rounds `x` up to a multiple of `a` by clearing the bits of `a - 1` in `x + a - 1`.
The result is always among the `a` numbers from `x` on, but it is a multiple of `a` only
if the cleared bits are a remainder, as they are when `a` is a power of two.

## Main definitions

* `maskUp` — the rounding.
* `MaskRounds` — it finds the least multiple (`isLeast_maskUp_iff`).
-/

namespace FastLlm

/-- `x + a - 1` without the bits of `a - 1`. -/
def maskUp (x a : ℕ) : ℕ := x + (a - 1) - ((x + (a - 1)) &&& (a - 1))

theorem le_maskUp (x a : ℕ) : x ≤ maskUp x a := by
  have hand : (x + (a - 1)) &&& (a - 1) ≤ a - 1 := Nat.and_le_right
  unfold maskUp
  omega

theorem maskUp_lt {x a : ℕ} (ha : 0 < a) : maskUp x a < x + a := by
  unfold maskUp
  omega

/-- Among the multiples of `a` from `x` on, the least is the one less than `a` away. -/
theorem isLeast_multiple_iff {x m : ℕ} {a : ℤ} (hx : 0 < x) (hm : x ≤ m) :
    IsLeast {d : ℕ | x ≤ d ∧ a ∣ d} m ↔ a ∣ m ∧ (m : ℤ) < x + |a| := by
  constructor
  · rintro ⟨⟨-, hdvd⟩, hleast⟩
    refine ⟨hdvd, ?_⟩
    by_contra hfar
    have habs : |a| ∣ (m : ℤ) := (abs_dvd a _).mpr hdvd
    have ha : |a| ≠ 0 := by
      intro h0
      rw [h0, zero_dvd_iff] at habs
      omega
    have hpos : 0 < |a| := lt_of_le_of_ne (abs_nonneg a) (Ne.symm ha)
    -- one multiple less is still not below `x`
    have hmem : m - |a|.toNat ∈ {d : ℕ | x ≤ d ∧ a ∣ d} := by
      refine ⟨by omega, ?_⟩
      have hcast : ((m - |a|.toNat : ℕ) : ℤ) = m - |a| := by omega
      rw [hcast]
      exact Int.dvd_sub hdvd ((dvd_abs a a).mpr dvd_rfl)
    have hle := hleast hmem
    omega
  · rintro ⟨hdvd, hlt⟩
    refine ⟨⟨hm, hdvd⟩, ?_⟩
    rintro d ⟨hd, hdvd'⟩
    by_contra hgt
    have hsub : |a| ∣ (m : ℤ) - d := (abs_dvd a _).mpr (Int.dvd_sub hdvd hdvd')
    have hle := Int.le_of_dvd (by omega) hsub
    omega

/-- What the mask does to `x` is to find the least multiple of `a` from there on.  The
mask is made from `b`, which is `a` as far as it fits. -/
structure MaskRounds (x : ℕ) (a : ℤ) (b : ℕ) : Prop where
  pos : 0 < b
  dvd : a ∣ (maskUp x b : ℤ)
  lt : (maskUp x b : ℤ) < x + |a|

theorem isLeast_maskUp_iff {x b : ℕ} {a : ℤ} (hx : 0 < x) (hb : 0 < b) :
    IsLeast {d : ℕ | x ≤ d ∧ a ∣ d} (maskUp x b) ↔ MaskRounds x a b := by
  rw [isLeast_multiple_iff hx (le_maskUp x b)]
  constructor
  · rintro ⟨hdvd, hlt⟩
    exact ⟨hb, hdvd, hlt⟩
  · intro h
    exact ⟨h.dvd, h.lt⟩

/-- The bits below a power of two are a remainder. -/
theorem maskUp_two_pow (x k : ℕ) :
    maskUp x (2 ^ k) = (x + (2 ^ k - 1)) / 2 ^ k * 2 ^ k := by
  have hdiv := Nat.div_add_mod (x + (2 ^ k - 1)) (2 ^ k)
  rw [maskUp, Nat.and_two_pow_sub_one_eq_mod, Nat.mul_comm (_ / _)]
  omega

/-- A power of two rounds everywhere. -/
theorem maskRounds_two_pow (x k : ℕ) : MaskRounds x (2 ^ k : ℕ) (2 ^ k) where
  pos := Nat.two_pow_pos k
  dvd := by
    rw [maskUp_two_pow]
    exact Int.natCast_dvd_natCast.mpr (Nat.dvd_mul_left _ _)
  lt := by
    have hlt := maskUp_lt (x := x) (Nat.two_pow_pos k)
    rw [Nat.abs_cast]
    omega

/-! ## In 64 bits -/

theorem toNat_and_not (x m : UInt64) :
    (x &&& ~~~m).toNat = x.toNat - (x.toNat &&& m.toNat) := by
  have hand : (x.toBitVec &&& m.toBitVec) &&& (x.toBitVec &&& ~~~m.toBitVec) = 0#64 := by
    ext i hi
    cases hm : m.toBitVec[i] <;> simp [hm]
  have hor : (x.toBitVec &&& m.toBitVec) ||| (x.toBitVec &&& ~~~m.toBitVec) = x.toBitVec := by
    ext i hi
    simp [← Bool.and_or_distrib_left]
  have hsub : x.toBitVec &&& ~~~m.toBitVec = x.toBitVec - (x.toBitVec &&& m.toBitVec) := by
    rw [BitVec.eq_sub_iff_add_eq, BitVec.add_comm, BitVec.add_eq_or_of_and_eq_zero _ _ hand, hor]
  have hle : x.toBitVec &&& m.toBitVec ≤ x.toBitVec := by
    rw [BitVec.le_def, BitVec.toNat_and]
    exact Nat.and_le_left
  calc (x &&& ~~~m).toNat = (x.toBitVec &&& ~~~m.toBitVec).toNat := rfl
    _ = x.toNat - (x.toNat &&& m.toNat) := by
      rw [hsub, BitVec.toNat_sub_of_le hle, BitVec.toNat_and]
      rfl

end FastLlm
