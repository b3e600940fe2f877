import Mathlib.Algebra.Order.Field.Basic
import Mathlib.Algebra.Ring.Parity
import Mathlib.Data.Rat.Cast.Order
import Mathlib.Tactic.Linarith
import Mathlib.Tactic.Positivity
import Mathlib.Tactic.Ring

/-!
# Binary floating-point formats

The patterns of a binary interchange format are numbers: the sign is the top bit, and below it
the exponent and the fraction together count the magnitudes upwards, subnormal ones first.  The
magnitude of a pattern is a whole number of least subnormals, and it grows strictly with the
pattern (`mag_strictMono`); rounding is therefore a matter of the two neighbours of a number
(`NearestEven.lower`, `NearestEven.upper`), whatever their exponents are.

## Main definitions

* `NearestEven v x n` — `v n` is the value nearest to `x` in a sequence, ties to even.
* `BinaryFormat`, `BinaryFormat.value` — a format, and the number a pattern stands for.
* `BinaryFormat.RoundsTo` — a pattern is the nearest finite one to a number, ties to even.
-/

/-! ## The nearest term of a sequence -/

/-- No term of `v` is closer to `x` than `v n`, and when another is as close, `n` is even. -/
structure NearestEven (v : ℕ → ℚ) (x : ℚ) (n : ℕ) : Prop where
  nearest : ∀ k, |x - v n| ≤ |x - v k|
  even : ∀ k, k ≠ n → |x - v k| = |x - v n| → Even n

namespace NearestEven

variable {v : ℕ → ℚ} {x : ℚ} {n : ℕ}

/-- Between two neighbours, the lower one when it is closer, or as close and even. -/
theorem lower (hv : StrictMono v) (hlo : v n ≤ x)
    (hclose : x - v n < v (n + 1) - x ∨ x - v n = v (n + 1) - x ∧ Even n) :
    NearestEven v x n := by
  have hdist : |x - v n| = x - v n := abs_of_nonneg (sub_nonneg.mpr hlo)
  have hother : ∀ k, k ≠ n → v (n + 1) - x ≤ |x - v k| ∨ x - v n < |x - v k| := by
    intro k hk
    rcases Nat.lt_or_gt_of_ne hk with h | h
    · have hlt : v k < v n := hv h
      exact .inr (lt_of_lt_of_le (by linarith) (le_abs_self _))
    · have hle : v (n + 1) ≤ v k := hv.monotone h
      exact .inl (le_trans (by linarith) (neg_le_abs _))
  refine ⟨fun k => ?_, fun k hk htie => ?_⟩
  · by_cases hk : k = n
    · rw [hk]
    · rw [hdist]
      rcases hother k hk, hclose with ⟨h | h, h' | ⟨h', -⟩⟩ <;> linarith
  · rw [hdist] at htie
    rcases hclose with hlt | ⟨-, heven⟩
    · rcases hother k hk with h | h <;> linarith
    · exact heven

/-- Between two neighbours, the upper one when it is closer, or as close and even. -/
theorem upper (hv : StrictMono v) (hhi : x ≤ v (n + 1))
    (hclose : v (n + 1) - x < x - v n ∨ v (n + 1) - x = x - v n ∧ Even (n + 1)) :
    NearestEven v x (n + 1) := by
  have hdist : |x - v (n + 1)| = v (n + 1) - x := by
    rw [abs_sub_comm]
    exact abs_of_nonneg (sub_nonneg.mpr hhi)
  have hother : ∀ k, k ≠ n + 1 → x - v n ≤ |x - v k| ∨ v (n + 1) - x < |x - v k| := by
    intro k hk
    rcases Nat.lt_or_gt_of_ne hk with h | h
    · have hle : v k ≤ v n := hv.monotone (Nat.le_of_lt_succ h)
      exact .inl (le_trans (by linarith) (le_abs_self _))
    · have hlt : v (n + 1) < v k := hv h
      exact .inr (lt_of_lt_of_le (by linarith) (neg_le_abs _))
  refine ⟨fun k => ?_, fun k hk htie => ?_⟩
  · by_cases hk : k = n + 1
    · rw [hk]
    · rw [hdist]
      rcases hother k hk, hclose with ⟨h | h, h' | ⟨h', -⟩⟩ <;> linarith
  · rw [hdist] at htie
    rcases hclose with hlt | ⟨-, heven⟩
    · rcases hother k hk with h | h <;> linarith
    · exact heven

/-- A term of the sequence is its own nearest one. -/
theorem eq_of_exact (hv : StrictMono v) {m : ℕ} (h : NearestEven v (v m) n) : n = m := by
  have hle := h.nearest m
  rw [sub_self, abs_zero, abs_nonpos_iff, sub_eq_zero] at hle
  exact hv.injective hle.symm

/-- Rounding by the bits that are cut off: `x` lies `r` steps of `c` above `v n`, and the next
term `2 ^ (s + 1)` of them. -/
theorem of_rem (hv : StrictMono v) {c : ℚ} (hc : 0 < c) {r s : ℕ} (hx : x = v n + r * c)
    (hnext : v (n + 1) = v n + 2 ^ (s + 1) * c) (hr : r < 2 ^ (s + 1)) :
    NearestEven v x (if 2 ^ s < r ∨ r = 2 ^ s ∧ n % 2 = 1 then n + 1 else n) := by
  have hlo : v n ≤ x := by
    rw [hx]
    have : 0 ≤ (r : ℚ) * c := by positivity
    linarith
  have hhi : x ≤ v (n + 1) := by
    have : (r : ℚ) ≤ 2 ^ (s + 1) := by exact_mod_cast hr.le
    have := mul_le_mul_of_nonneg_right this hc.le
    rw [hx, hnext]
    linarith
  have hgap : v (n + 1) - x - (x - v n) = 2 * ((2 ^ s - r) * c) := by
    rw [hx, hnext, pow_succ]
    ring
  split_ifs with hup
  · refine upper hv hhi ?_
    rcases hup with hlt | ⟨rfl, hodd⟩
    · have : (2 ^ s : ℚ) < r := by exact_mod_cast hlt
      have : (2 ^ s - r : ℚ) * c < 0 := mul_neg_of_neg_of_pos (by linarith) hc
      exact .inl (by linarith)
    · push_cast at hgap
      rw [sub_self, zero_mul, mul_zero] at hgap
      exact .inr ⟨by linarith, by rw [Nat.even_iff]; omega⟩
  · refine lower hv hlo ?_
    rcases Nat.lt_trichotomy r (2 ^ s) with hlt | heq | hgt
    · have : (r : ℚ) < 2 ^ s := by exact_mod_cast hlt
      have : 0 < (2 ^ s - r : ℚ) * c := mul_pos (by linarith) hc
      exact .inl (by linarith)
    · have hq : (r : ℚ) = 2 ^ s := by exact_mod_cast heq
      rw [hq, sub_self, zero_mul, mul_zero] at hgap
      refine .inr ⟨by linarith, ?_⟩
      rw [Nat.even_iff]
      by_contra hodd
      exact hup (.inr ⟨heq, by omega⟩)
    · exact absurd (.inl hgt) hup

/-- With a sign in front, a nearest term is nearest among the terms of both signs. -/
theorem signed (h : NearestEven v x n) (hx : 0 ≤ x) (h0 : v 0 = 0) (hpos : ∀ k, 0 ≤ v k)
    {a b : ℚ} (ha : a = 1 ∨ a = -1) (hb : b = 1 ∨ b = -1) (k : ℕ) :
    |a * x - a * v n| ≤ |a * x - b * v k| ∧
      (b * v k ≠ a * v n → |a * x - b * v k| = |a * x - a * v n| → Even n) := by
  have habs : ∀ y : ℚ, |a * x - a * y| = |x - y| := by
    intro y
    rcases ha with rfl | rfl
    · simp
    · rw [← mul_sub, abs_mul, abs_neg, abs_one, one_mul]
  rcases eq_or_ne b a with rfl | hne
  · rw [habs, habs]
    refine ⟨h.nearest k, fun hdiff htie => h.even k ?_ htie⟩
    rintro rfl
    exact hdiff rfl
  · -- the other sign lies beyond zero
    have hba : b = -a := by
      rcases ha with rfl | rfl <;> rcases hb with rfl | rfl <;> simp_all
    have hfar : |a * x - b * v k| = x + v k := by
      rw [hba, neg_mul, ← mul_neg, habs, sub_neg_eq_add]
      exact abs_of_nonneg (add_nonneg hx (hpos k))
    have hzero : |x - v n| ≤ x := by
      have := h.nearest 0
      rwa [h0, sub_zero, abs_of_nonneg hx] at this
    have hk := hpos k
    rw [hfar, habs]
    refine ⟨by linarith, fun _ htie => ?_⟩
    rcases Nat.eq_zero_or_pos n with rfl | hn
    · exact ⟨0, rfl⟩
    · refine h.even 0 (Nat.ne_of_lt hn) ?_
      rw [h0, sub_zero, abs_of_nonneg hx]
      linarith

end NearestEven

/-! ## Formats -/

/-- A binary format: the bits of the fraction, the bits of exponent and fraction together, and
the least subnormal `2 ^ (-least)`. -/
structure BinaryFormat where
  fraction : ℕ
  width : ℕ
  least : ℕ

namespace BinaryFormat

variable (F : BinaryFormat)

/-- The magnitude of a pattern without its sign, in least subnormals. -/
def mag (n : ℕ) : ℕ :=
  if n < 2 ^ F.fraction then n
  else (2 ^ F.fraction + n % 2 ^ F.fraction) * 2 ^ (n / 2 ^ F.fraction - 1)

/-- The pattern of infinity; larger ones are no numbers. -/
def inf : ℕ := 2 ^ F.width - 2 ^ F.fraction

/-- The pattern without its sign. -/
def unsigned (p : ℕ) : ℕ := p % 2 ^ F.width

/-- The sign bit. -/
def signBit (p : ℕ) : ℕ := p / 2 ^ F.width

/-- The pattern stands for a number. -/
def Finite (p : ℕ) : Prop := F.unsigned p < F.inf

instance (p : ℕ) : Decidable (F.Finite p) := inferInstanceAs (Decidable (_ < _))

/-- The pattern is not a number. -/
def IsNaN (p : ℕ) : Prop := F.inf < F.unsigned p

instance (p : ℕ) : Decidable (F.IsNaN p) := inferInstanceAs (Decidable (_ < _))

/-- The number a pattern without a sign stands for. -/
def magnitude (n : ℕ) : ℚ := F.mag n / 2 ^ F.least

/-- The number a pattern stands for. -/
def value (p : ℕ) : ℚ := (-1) ^ F.signBit p * F.magnitude (F.unsigned p)

/-- `p` is the finite pattern nearest to `x`, and an even one if another number is as close. -/
structure RoundsTo (x : ℚ) (p : ℕ) : Prop where
  finite : F.Finite p
  nearest : ∀ k, F.Finite k → |x - F.value p| ≤ |x - F.value k|
  even : ∀ k, F.Finite k → F.value k ≠ F.value p → |x - F.value k| = |x - F.value p| → Even p

/-! ## Magnitudes -/

theorem mag_of_lt {n : ℕ} (h : n < 2 ^ F.fraction) : F.mag n = n := if_pos h

theorem mag_of_le {n : ℕ} (h : 2 ^ F.fraction ≤ n) :
    F.mag n = (2 ^ F.fraction + n % 2 ^ F.fraction) * 2 ^ (n / 2 ^ F.fraction - 1) :=
  if_neg (Nat.not_lt.mpr h)

@[simp] theorem mag_zero : F.mag 0 = 0 := F.mag_of_lt (Nat.two_pow_pos _)

/-- The next magnitude is one unit of the exponent further. -/
theorem mag_succ (n : ℕ) : F.mag (n + 1) = F.mag n + 2 ^ (n / 2 ^ F.fraction - 1) := by
  have hpos : 0 < 2 ^ F.fraction := Nat.two_pow_pos _
  rcases Nat.lt_or_ge (n + 1) (2 ^ F.fraction) with hsub | hge
  · rw [F.mag_of_lt hsub, F.mag_of_lt (by omega), Nat.div_eq_of_lt (by omega)]
    rfl
  have hdm := Nat.div_add_mod n (2 ^ F.fraction)
  have hlt := Nat.mod_lt n hpos
  rcases Nat.lt_or_ge (n % 2 ^ F.fraction + 1) (2 ^ F.fraction) with hin | hout
  · -- the fraction grows
    have hmod : (n + 1) % 2 ^ F.fraction = n % 2 ^ F.fraction + 1 := by
      rw [← hdm, Nat.add_assoc, Nat.mul_add_mod, Nat.mod_eq_of_lt hin, Nat.mul_add_mod,
        Nat.mod_mod]
    have hdiv : (n + 1) / 2 ^ F.fraction = n / 2 ^ F.fraction := by
      conv_lhs => rw [← hdm, Nat.add_assoc, Nat.mul_add_div hpos, Nat.div_eq_of_lt hin]
      rfl
    have hle : 2 ^ F.fraction ≤ n := by
      by_contra hcon
      rw [Nat.mod_eq_of_lt (by omega)] at hin
      omega
    rw [F.mag_of_le hge, F.mag_of_le hle, hmod, hdiv]
    ring
  · -- the fraction is full and the exponent grows
    have hfull : n % 2 ^ F.fraction + 1 = 2 ^ F.fraction := by omega
    have hnext : n + 1 = 2 ^ F.fraction * (n / 2 ^ F.fraction + 1) := by
      rw [Nat.mul_add, Nat.mul_one]
      omega
    have hmod : (n + 1) % 2 ^ F.fraction = 0 := by rw [hnext, Nat.mul_mod_right]
    have hdiv : (n + 1) / 2 ^ F.fraction = n / 2 ^ F.fraction + 1 := by
      rw [hnext, Nat.mul_div_cancel_left _ hpos]
    rw [F.mag_of_le hge, hmod, hdiv]
    rcases Nat.eq_zero_or_pos (n / 2 ^ F.fraction) with he | he
    · have hsmall : n < 2 ^ F.fraction := by
        rw [he, Nat.mul_zero, Nat.zero_add] at hdm
        omega
      rw [F.mag_of_lt hsmall, he]
      rw [Nat.mod_eq_of_lt hsmall] at hfull
      simpa using hfull.symm
    · have hle : 2 ^ F.fraction ≤ n := (Nat.div_pos_iff.mp he).2
      obtain ⟨e, he⟩ : ∃ e, n / 2 ^ F.fraction = e + 1 := ⟨_, (Nat.sub_add_cancel he).symm⟩
      have hm : n % 2 ^ F.fraction = 2 ^ F.fraction - 1 := by omega
      rw [F.mag_of_le hle, he, hm]
      simp only [Nat.add_sub_cancel, Nat.add_zero, pow_succ]
      rw [← Nat.add_one_mul]
      have : 2 ^ F.fraction + (2 ^ F.fraction - 1) + 1 = 2 ^ F.fraction * 2 := by omega
      rw [this]
      ring

theorem mag_strictMono : StrictMono F.mag :=
  strictMono_nat_of_lt_succ fun n => by
    rw [F.mag_succ]
    exact Nat.lt_add_of_pos_right (Nat.two_pow_pos _)

@[simp] theorem magnitude_zero : F.magnitude 0 = 0 := by simp [magnitude]

theorem magnitude_nonneg (n : ℕ) : 0 ≤ F.magnitude n := by
  rw [magnitude]
  positivity

theorem magnitude_strictMono : StrictMono F.magnitude := fun a b h => by
  have : (F.mag a : ℚ) < F.mag b := by exact_mod_cast F.mag_strictMono h
  exact div_lt_div_of_pos_right this (by positivity)

/-- Patterns with one exponent are evenly spaced. -/
theorem magnitude_succ (n : ℕ) :
    F.magnitude (n + 1) = F.magnitude n + 2 ^ (n / 2 ^ F.fraction - 1) / 2 ^ F.least := by
  rw [magnitude, magnitude, F.mag_succ]
  push_cast
  ring

/-! ## Signs -/

theorem sign_cases (s : ℕ) : ((-1 : ℚ) ^ s = 1) ∨ ((-1 : ℚ) ^ s = -1) := neg_one_pow_eq_or ℚ s

theorem abs_value (p : ℕ) : |F.value p| = F.magnitude (F.unsigned p) := by
  rw [value, abs_mul, abs_pow, abs_neg, abs_one, one_pow, one_mul,
    abs_of_nonneg (F.magnitude_nonneg _)]

/-- Rounding the magnitude rounds the number. -/
theorem RoundsTo.of_magnitude {F : BinaryFormat} {x : ℚ} {s p : ℕ} (hx : 0 ≤ x)
    (hfin : F.Finite p) (hsign : (-1 : ℚ) ^ F.signBit p = (-1) ^ s)
    (hmag : NearestEven F.magnitude x (F.unsigned p)) (hw : 0 < F.width) :
    F.RoundsTo ((-1) ^ s * x) p := by
  have heven : Even (F.unsigned p) → Even p := by
    rw [unsigned, Nat.even_iff, Nat.even_iff,
      Nat.mod_mod_of_dvd _ (dvd_pow_self 2 (Nat.ne_of_gt hw))]
    exact id
  have hboth := fun k => hmag.signed hx F.magnitude_zero F.magnitude_nonneg (sign_cases s)
    (sign_cases (F.signBit k)) (F.unsigned k)
  refine ⟨hfin, fun k _ => ?_, fun k _ hdiff htie => heven ?_⟩
  · rw [value, value, hsign]
    exact (hboth k).1
  · rw [value, value, hsign] at htie
    refine (hboth k).2 ?_ htie
    rwa [value, value, hsign] at hdiff

end BinaryFormat
