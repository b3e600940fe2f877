import FastLlm.Lib.BinaryFormat
import FastLlm.Runtime.Shadow
import Mathlib.Tactic.LinearCombination

/-!
# Rounding to half precision

`fl_float2half` of `quants.h`, on bit patterns.  It has one path for the halves that overflow, one
for the subnormal ones and one for the rest; each cuts the low bits off a pattern and adds one to
what is left when they are more than half, or half and the result odd (`float2half_halved`).  The
patterns of a format count its magnitudes upwards, so the addition may run over from the fraction
into the exponent: the result is still the next half.

`fl_half2float` is exact (`half2float_widened`), and so it is undone by rounding.

## Main definitions

* `binary16`, `binary32` — the two formats.
* `float2half` — `fl_float2half`.
* `Halved` — what rounding does with the bits below the sign.
-/

namespace FastLlm

/-- Half precision. -/
def binary16 : BinaryFormat := ⟨10, 15, 24⟩

/-- Single precision. -/
def binary32 : BinaryFormat := ⟨23, 31, 149⟩

/-- `if (rem > half || (rem == half && (h & 1))) ++h;` -/
def roundRem (h rem half : UInt32) : UInt32 :=
  if rem > half ∨ rem = half ∧ h &&& 1 ≠ 0 then h + 1 else h

/-- `fl_float2half`, of the bits of the float. -/
def float2half (u : UInt32) : UInt16 :=
  let sign := (u >>> 16) &&& 0x8000
  let em := u &&& 0x7FFFFFFF
  if em ≥ 0x47800000 then
    (sign ||| (if em > 0x7F800000 then 0x7E00 else 0x7C00)).toUInt16
  else if em < 0x38800000 then
    let shift := (126 : UInt32) - (em >>> 23)
    if shift > 24 then sign.toUInt16
    else
      let m := (em &&& 0x7FFFFF) ||| 0x800000
      (sign ||| roundRem (m >>> shift) (m &&& (((1 : UInt32) <<< shift) - 1))
        ((1 : UInt32) <<< (shift - 1))).toUInt16
  else
    let h := (((em >>> 23) - 112) <<< 10) ||| ((em >>> 13) &&& 0x3FF)
    (sign ||| roundRem h (em &&& 0x1FFF) 0x1000).toUInt16

/-- What rounding does with the bits below the sign: the nearest half below the threshold of
65520, infinity from there on, and one of the patterns that are no numbers for another. -/
structure Halved (em h : ℕ) : Prop where
  nearest : em < 0x477FF000 → NearestEven binary16.magnitude (binary32.magnitude em) h
  below : em < 0x477FF000 → h < 0x7C00
  overflow : 0x477FF000 ≤ em → em ≤ 0x7F800000 → h = 0x7C00
  nan : 0x7F800000 < em → h = 0x7E00

/-! ## Words -/

theorem toNat_and_low (u : UInt32) {m : UInt32} (k : ℕ) (hm : m.toNat = 2 ^ k - 1) :
    (u &&& m).toNat = u.toNat % 2 ^ k := by
  rw [UInt32.toNat_and, hm, Nat.and_two_pow_sub_one_eq_mod]

theorem toNat_and_bit (u : UInt32) {m : UInt32} (k : ℕ) (hm : m.toNat = 2 ^ k) :
    (u &&& m).toNat = u.toNat / 2 ^ k % 2 * 2 ^ k := by
  have hbit : ∀ i, (u.toNat &&& 2 ^ k).testBit i = (decide (k = i) && u.toNat.testBit k) := by
    intro i
    rw [Nat.testBit_and, Nat.testBit_two_pow]
    by_cases h : k = i <;> simp [h]
  rw [UInt32.toNat_and, hm]
  refine Nat.eq_of_testBit_eq fun i => ?_
  rw [hbit, Nat.testBit_eq_decide_div_mod_eq]
  rcases Nat.mod_two_eq_zero_or_one (u.toNat / 2 ^ k) with h | h <;> simp [h, Nat.testBit_two_pow]

/-- The sign of a float, where a half has its own. -/
theorem sign_toNat (u : UInt32) : ((u >>> 16) &&& 0x8000).toNat = 2 ^ 15 * (u.toNat / 2 ^ 31) := by
  have hlt := u.toNat_lt
  rw [toNat_and_bit _ 15 rfl, UInt32.toNat_shiftRight,
    show (16 : UInt32).toNat % 32 = 16 from rfl, Nat.shiftRight_eq_div_pow,
    Nat.div_div_eq_div_mul, Nat.mod_eq_of_lt (by omega), Nat.mul_comm]
  norm_num

/-- Sign and magnitude put together. -/
theorem toNat_signed (u : UInt32) {h : UInt32} (hh : h.toNat < 2 ^ 15) :
    (((u >>> 16) &&& 0x8000) ||| h).toUInt16.toNat = 2 ^ 15 * (u.toNat / 2 ^ 31) + h.toNat := by
  have hlt := u.toNat_lt
  rw [UInt32.toNat_toUInt16, UInt32.toNat_or, sign_toNat, ← Nat.two_pow_add_eq_or_of_lt hh]
  exact Nat.mod_eq_of_lt (by omega)

/-- `++h` when the bits cut off ask for it. -/
theorem toNat_roundRem {h half : UInt32} (rem : UInt32) {s : ℕ} (hh : h.toNat < 2 ^ 15)
    (hhalf : half.toNat = 2 ^ s) :
    (roundRem h rem half).toNat =
      if 2 ^ s < rem.toNat ∨ rem.toNat = 2 ^ s ∧ h.toNat % 2 = 1 then h.toNat + 1 else h.toNat := by
  have hodd : h &&& 1 ≠ 0 ↔ h.toNat % 2 = 1 := by
    rw [ne_eq, ← UInt32.toNat_inj, toNat_and_low h 1 rfl]
    simp
  have hcond : (rem > half ∨ rem = half ∧ h &&& 1 ≠ 0) ↔
      (2 ^ s < rem.toNat ∨ rem.toNat = 2 ^ s ∧ h.toNat % 2 = 1) := by
    rw [gt_iff_lt, UInt32.lt_iff_toNat_lt, ← UInt32.toNat_inj, hhalf, hodd]
  rw [roundRem]
  simp only [hcond]
  split_ifs
  · rw [UInt32.toNat_add]
    exact Nat.mod_eq_of_lt (by simp; omega)
  · rfl

/-! ## The three paths -/

theorem magnitude32 {em : ℕ} (h : 2 ^ 23 ≤ em) :
    binary32.magnitude em = (2 ^ 23 + (em % 2 ^ 23 : ℕ)) * 2 ^ (em / 2 ^ 23 - 1) / 2 ^ 149 := by
  rw [BinaryFormat.magnitude, binary32.mag_of_le h]
  push_cast [binary32]
  rfl

/-- Below half the least subnormal half there is only zero. -/
theorem nearest_tiny {em : ℕ} (h : em < 102 * 2 ^ 23) :
    NearestEven binary16.magnitude (binary32.magnitude em) 0 := by
  have hlt : binary32.magnitude em < 1 / 2 ^ 25 := by
    calc binary32.magnitude em < binary32.magnitude (102 * 2 ^ 23) :=
          binary32.magnitude_strictMono h
      _ = 1 / 2 ^ 25 := by
          rw [magnitude32 (by norm_num)]
          norm_num
  refine NearestEven.lower binary16.magnitude_strictMono ?_ (.inl ?_)
  · rw [BinaryFormat.magnitude_zero]
    exact binary32.magnitude_nonneg em
  · rw [binary16.magnitude_succ, BinaryFormat.magnitude_zero]
    norm_num [binary16] at hlt ⊢
    linarith

/-- The subnormal path: the significand, cut to a multiple of the least subnormal. -/
theorem nearest_subnormal {em t : ℕ} (ht : em / 2 ^ 23 + t = 125) (hlo : 102 * 2 ^ 23 ≤ em)
    (hhi : em < 113 * 2 ^ 23) {m : ℕ} (hm : m = 2 ^ 23 + em % 2 ^ 23) :
    NearestEven binary16.magnitude (binary32.magnitude em)
      (if 2 ^ t < m % 2 ^ (t + 1) ∨ m % 2 ^ (t + 1) = 2 ^ t ∧ m / 2 ^ (t + 1) % 2 = 1
        then m / 2 ^ (t + 1) + 1 else m / 2 ^ (t + 1)) := by
  have hpow : (2 : ℚ) ^ (t + 1) * 2 ^ (em / 2 ^ 23 - 1) = 2 ^ 125 := by
    rw [← pow_add]
    congr 1
    omega
  have hn : m / 2 ^ (t + 1) < 2 ^ 10 := by
    have : 2 ^ 14 ≤ 2 ^ (t + 1) := Nat.pow_le_pow_right (by omega) (by omega)
    refine Nat.div_lt_of_lt_mul ?_
    omega
  have hv : binary16.magnitude (m / 2 ^ (t + 1)) = (m / 2 ^ (t + 1) : ℕ) / 2 ^ 24 := by
    rw [BinaryFormat.magnitude, binary16.mag_of_lt hn]
    rfl
  have hsplit : ((2 : ℚ) ^ 23 + (em % 2 ^ 23 : ℕ)) =
      2 ^ (t + 1) * (m / 2 ^ (t + 1) : ℕ) + (m % 2 ^ (t + 1) : ℕ) := by
    have := Nat.div_add_mod m (2 ^ (t + 1))
    rw [hm] at this ⊢
    exact_mod_cast this.symm
  refine NearestEven.of_rem (c := 2 ^ (em / 2 ^ 23 - 1) / 2 ^ 149) binary16.magnitude_strictMono
    (by positivity) ?_ ?_ (Nat.mod_lt _ (Nat.two_pow_pos _))
  · rw [magnitude32 (by omega), hsplit, hv]
    linear_combination ((m / 2 ^ (t + 1) : ℕ) / 2 ^ 149 : ℚ) * hpow
  · rw [binary16.magnitude_succ, show binary16.fraction = 10 from rfl, Nat.div_eq_of_lt hn,
      show binary16.least = 24 from rfl]
    linear_combination (-1 / 2 ^ 149 : ℚ) * hpow

/-- The normal path: thirteen bits of the fraction are cut off, and the exponent moved. -/
theorem nearest_normal {em n : ℕ} (hlo : 113 * 2 ^ 23 ≤ em)
    (hn : n + 112 * 2 ^ 10 = em / 2 ^ 13) :
    NearestEven binary16.magnitude (binary32.magnitude em)
      (if 2 ^ 12 < em % 2 ^ 13 ∨ em % 2 ^ 13 = 2 ^ 12 ∧ n % 2 = 1 then n + 1 else n) := by
  obtain ⟨e, he⟩ : ∃ e, em / 2 ^ 23 = e + 113 := ⟨em / 2 ^ 23 - 113, by omega⟩
  have hexp : n / 2 ^ 10 = e + 1 := by omega
  have hfrac : em % 2 ^ 23 = 2 ^ 13 * (n % 2 ^ 10) + em % 2 ^ 13 := by omega
  have hv : binary16.magnitude n = (2 ^ 10 + (n % 2 ^ 10 : ℕ)) * 2 ^ e / 2 ^ 24 := by
    rw [BinaryFormat.magnitude, binary16.mag_of_le (by norm_num [binary16]; omega),
      show binary16.fraction = 10 from rfl, hexp]
    push_cast [binary16]
    rfl
  refine NearestEven.of_rem (c := 2 ^ (e + 112) / 2 ^ 149) binary16.magnitude_strictMono
    (by positivity) ?_ ?_ (Nat.mod_lt _ (by norm_num))
  · rw [magnitude32 (by omega), he, hfrac, hv]
    push_cast
    ring
  · rw [binary16.magnitude_succ, show binary16.fraction = 10 from rfl, hexp,
      Nat.add_sub_cancel, show binary16.least = 24 from rfl]
    ring

/-- Above the tiny ones, what `Halved` asks for is the nearest half below the threshold and
infinity at it. -/
theorem Halved.of_finite {em h : ℕ} (hem : em < 0x47800000)
    (hnear : NearestEven binary16.magnitude (binary32.magnitude em) h)
    (hbelow : em < 0x477FF000 → h < 0x7C00) (habove : 0x477FF000 ≤ em → h = 0x7C00) :
    Halved em h :=
  ⟨fun _ => hnear, hbelow, fun h _ => habove h, fun h => by omega⟩

theorem toNat_shiftRight {u k : UInt32} (hk : k.toNat < 32) :
    (u >>> k).toNat = u.toNat / 2 ^ k.toNat := by
  rw [UInt32.toNat_shiftRight, Nat.mod_eq_of_lt hk, Nat.shiftRight_eq_div_pow]

theorem toNat_one_shiftLeft {k : UInt32} (hk : k.toNat < 32) :
    ((1 : UInt32) <<< k).toNat = 2 ^ k.toNat := by
  rw [UInt32.toNat_shiftLeft, Nat.mod_eq_of_lt hk, Nat.shiftLeft_eq, UInt32.toNat_one, Nat.one_mul]
  exact Nat.mod_eq_of_lt (Nat.pow_lt_pow_right (by norm_num) hk)

/-- The hidden bit above the fraction. -/
theorem toNat_significand (em : UInt32) :
    ((em &&& 0x7FFFFF) ||| 0x800000).toNat = 2 ^ 23 + em.toNat % 2 ^ 23 := by
  rw [UInt32.toNat_or, toNat_and_low em 23 rfl, Nat.or_comm,
    show (0x800000 : UInt32).toNat = 2 ^ 23 * 1 from rfl,
    ← Nat.two_pow_add_eq_or_of_lt (Nat.mod_lt _ (by norm_num)), Nat.mul_one]

/-- The exponent with its new bias, and the top of the fraction. -/
theorem toNat_rebased {em : UInt32} (hlo : 113 * 2 ^ 23 ≤ em.toNat)
    (hhi : em.toNat < 143 * 2 ^ 23) :
    ((((em >>> 23) - 112) <<< 10) ||| ((em >>> 13) &&& 0x3FF)).toNat + 112 * 2 ^ 10 =
      em.toNat / 2 ^ 13 := by
  have hexp : (em >>> 23).toNat = em.toNat / 2 ^ 23 := toNat_shiftRight (by decide)
  have hsub : (em >>> 23 - 112).toNat = em.toNat / 2 ^ 23 - 112 := by
    rw [UInt32.toNat_sub_of_le _ _ (by rw [UInt32.le_iff_toNat_le, hexp]; simp; omega), hexp]
    rfl
  have hleft : ((em >>> 23 - 112) <<< 10).toNat = 2 ^ 10 * (em.toNat / 2 ^ 23 - 112) := by
    rw [UInt32.toNat_shiftLeft, hsub, show (10 : UInt32).toNat % 32 = 10 from rfl,
      Nat.shiftLeft_eq, Nat.mod_eq_of_lt (by omega), Nat.mul_comm]
  have hright : ((em >>> 13) &&& 0x3FF).toNat = em.toNat / 2 ^ 13 % 2 ^ 10 := by
    rw [toNat_and_low _ 10 rfl, toNat_shiftRight (by decide)]
    rfl
  rw [UInt32.toNat_or, hleft, hright,
    ← Nat.two_pow_add_eq_or_of_lt (Nat.mod_lt _ (by norm_num))]
  omega

theorem toNat_shift {em : UInt32} (h : em.toNat < 0x38800000) :
    ((126 : UInt32) - (em >>> 23)).toNat = 126 - em.toNat / 2 ^ 23 := by
  have hexp : (em >>> 23).toNat = em.toNat / 2 ^ 23 := toNat_shiftRight (by decide)
  have hle : em >>> 23 ≤ 126 := by
    rw [UInt32.le_iff_toNat_le, hexp]
    exact Nat.le_of_lt_succ (Nat.div_lt_of_lt_mul (by simp; omega))
  rw [UInt32.toNat_sub_of_le _ _ hle, hexp]
  rfl

/-- The subnormal path, in words. -/
theorem halved_subnormal {em shift m : UInt32} (hsub : em.toNat < 0x38800000)
    (hshift : shift.toNat = 126 - em.toNat / 2 ^ 23) (htiny : ¬ 24 < shift.toNat)
    (hm : m.toNat = 2 ^ 23 + em.toNat % 2 ^ 23) :
    let h := roundRem (m >>> shift) (m &&& (((1 : UInt32) <<< shift) - 1))
      ((1 : UInt32) <<< (shift - 1))
    h.toNat < 2 ^ 15 ∧ Halved em.toNat h.toNat := by
  obtain ⟨t, ht⟩ : ∃ t, em.toNat / 2 ^ 23 + t = 125 := ⟨125 - em.toNat / 2 ^ 23, by omega⟩
  have hs : shift.toNat = t + 1 := by omega
  have hone : ((1 : UInt32) <<< shift).toNat = 2 ^ (t + 1) := by
    rw [toNat_one_shiftLeft (by omega), hs]
  have hmask : (((1 : UInt32) <<< shift) - 1).toNat = 2 ^ (t + 1) - 1 := by
    rw [UInt32.toNat_sub_of_le, hone]
    · rfl
    · rw [UInt32.le_iff_toNat_le, hone]
      exact Nat.one_le_two_pow
  have hpred : (shift - 1).toNat = t := by
    rw [UInt32.toNat_sub_of_le, hs]
    · rfl
    · rw [UInt32.le_iff_toNat_le, hs]
      exact Nat.le_add_left 1 t
  have hmid : ((1 : UInt32) <<< (shift - 1)).toNat = 2 ^ t := by
    rw [toNat_one_shiftLeft (by omega), hpred]
  have hq : (m >>> shift).toNat = m.toNat / 2 ^ (t + 1) := by
    rw [toNat_shiftRight (by omega), hs]
  have hsmall : m.toNat / 2 ^ (t + 1) < 2 ^ 10 := by
    have : 2 ^ 14 ≤ 2 ^ (t + 1) := Nat.pow_le_pow_right (by omega) (by omega)
    exact Nat.div_lt_of_lt_mul (by omega)
  intro h
  have hround := toNat_roundRem (m &&& (((1 : UInt32) <<< shift) - 1)) (by rw [hq]; omega) hmid
  rw [hq, toNat_and_low m _ hmask] at hround
  have hle : h.toNat ≤ 2 ^ 10 := by
    rw [hround]
    split_ifs <;> omega
  refine ⟨by omega, .of_finite (by omega) ?_ (fun _ => by omega) (by omega)⟩
  rw [hround]
  exact nearest_subnormal ht (by omega) (by omega) hm

/-- The normal path, in words. -/
theorem halved_normal {em h : UInt32} (hlo : 0x38800000 ≤ em.toNat) (hhi : em.toNat < 0x47800000)
    (hn : h.toNat + 112 * 2 ^ 10 = em.toNat / 2 ^ 13) :
    let h' := roundRem h (em &&& 0x1FFF) 0x1000
    h'.toNat < 2 ^ 15 ∧ Halved em.toNat h'.toNat := by
  intro h'
  have hround : h'.toNat = _ := toNat_roundRem (em &&& 0x1FFF) (s := 12) (by omega) rfl
  rw [toNat_and_low em 13 rfl] at hround
  have hle : h'.toNat ≤ 0x7C00 := by
    rw [hround]
    split_ifs <;> omega
  refine ⟨by omega, .of_finite hhi ?_ (fun hlt => ?_) fun hge => ?_⟩
  · rw [hround]
    exact nearest_normal (by omega) hn
  · -- at most the largest half, and it is not rounded up
    rw [hround]
    split_ifs <;> omega
  · -- the largest half, which is odd, at half a step and more
    rw [hround]
    split_ifs <;> omega

/-- `fl_float2half` keeps the sign and rounds the rest. -/
theorem float2half_halved (u : UInt32) :
    (float2half u).toNat / 2 ^ 15 = u.toNat / 2 ^ 31 ∧
      Halved (u.toNat % 2 ^ 31) ((float2half u).toNat % 2 ^ 15) := by
  rw [← toNat_and_low u 31 (show (0x7FFFFFFF : UInt32).toNat = _ from rfl), float2half]
  generalize u &&& 0x7FFFFFFF = em
  have hsigned : ∀ h : UInt32, h.toNat < 2 ^ 15 ∧ Halved em.toNat h.toNat →
      (((u >>> 16) &&& 0x8000) ||| h).toUInt16.toNat / 2 ^ 15 = u.toNat / 2 ^ 31 ∧
        Halved em.toNat ((((u >>> 16) &&& 0x8000) ||| h).toUInt16.toNat % 2 ^ 15) := by
    rintro h ⟨hlt, hh⟩
    rw [toNat_signed u hlt, Nat.mul_add_div (by norm_num), Nat.mul_add_mod,
      Nat.div_eq_of_lt hlt, Nat.mod_eq_of_lt hlt]
    exact ⟨rfl, hh⟩
  dsimp only
  simp only [ge_iff_le, gt_iff_lt, UInt32.le_iff_toNat_le, UInt32.lt_iff_toNat_lt,
    UInt32.reduceToNat]
  split_ifs with hover hnan hsub htiny
  · exact hsigned _ ⟨by decide, by omega, by omega, by omega, fun _ => rfl⟩
  · exact hsigned _ ⟨by decide, by omega, by omega, fun _ _ => rfl, by omega⟩
  · rw [toNat_shift hsub] at htiny
    have := hsigned 0 ⟨by decide, .of_finite (by omega) (nearest_tiny (by omega))
      (fun _ => by decide) (by omega)⟩
    rwa [UInt32.or_zero] at this
  · exact hsigned _ (halved_subnormal hsub (toNat_shift hsub) htiny (toNat_significand em))
  · exact hsigned _ (halved_normal (by omega) (by omega) (toNat_rebased (by omega) (by omega)))

/-! ## Halves as floats -/

/-- What `fl_half2float` does with the bits below the sign: numbers keep their value, and infinity
is infinity. -/
structure Widened (h em : ℕ) : Prop where
  value : h < 0x7C00 → binary32.magnitude em = binary16.magnitude h
  inf : h = 0x7C00 → em = 0x7F800000

theorem toNat_and_low16 (h : UInt16) {m : UInt16} (k : ℕ) (hm : m.toNat = 2 ^ k - 1) :
    (h &&& m).toNat = h.toNat % 2 ^ k := by
  rw [UInt16.toNat_and, hm, Nat.and_two_pow_sub_one_eq_mod]

/-- Sign and magnitude put together. -/
theorem toNat_signed32 (h : UInt16) {f : UInt32} (hf : f.toNat < 2 ^ 31) :
    (((h &&& 0x8000).toUInt32 <<< 16) ||| f).toNat = 2 ^ 31 * (h.toNat / 2 ^ 15) + f.toNat := by
  have hlt := h.toNat_lt
  have hbit : (h &&& 0x8000).toUInt32 = h.toUInt32 &&& 0x8000 := UInt16.toUInt32_and h 0x8000
  rw [UInt32.toNat_or, UInt32.toNat_shiftLeft, hbit, toNat_and_bit _ 15 rfl,
    UInt16.toNat_toUInt32, show (16 : UInt32).toNat % 32 = 16 from rfl, Nat.shiftLeft_eq,
    show h.toNat / 2 ^ 15 % 2 * 2 ^ 15 * 2 ^ 16 % 2 ^ 32 = 2 ^ 31 * (h.toNat / 2 ^ 15) by omega,
    ← Nat.two_pow_add_eq_or_of_lt hf]

theorem toNat_shiftLeft {u k : UInt32} (hk : k.toNat < 32)
    (hu : u.toNat * 2 ^ k.toNat < 2 ^ 32) : (u <<< k).toNat = u.toNat * 2 ^ k.toNat := by
  rw [UInt32.toNat_shiftLeft, Nat.mod_eq_of_lt hk, Nat.shiftLeft_eq, Nat.mod_eq_of_lt hu]

/-- The loop doubles until bit 10 is set, and counts. -/
theorem renormalize_spec {a : ℕ} : ∀ (n : ℕ) (m e : UInt32) {i : ℕ}, m.toNat = a * 2 ^ i →
    m.toNat < 2 ^ 10 → 2 ^ 10 ≤ m.toNat * 2 ^ n → (e + 1).toNat = i → i + n ≤ 10 →
    ∃ j < 10, (half2float.renormalize n m e).2.toNat = j ∧
      (half2float.renormalize n m e).1.toNat = a * 2 ^ (j + 1) ∧
      2 ^ 10 ≤ a * 2 ^ (j + 1) ∧ a * 2 ^ (j + 1) < 2 ^ 11
  | 0, _, _, _, _, hlt, hge, _, _ => by omega
  | n + 1, m, e, i, hm, hlt, hge, he, hi => by
    have hdouble : (m <<< 1).toNat = m.toNat * 2 := toNat_shiftLeft (by decide) (by simp; omega)
    have hbit : (m <<< 1) &&& 0x0400 ≠ 0 ↔ 2 ^ 10 ≤ m.toNat * 2 := by
      rw [ne_eq, ← UInt32.toNat_inj, toNat_and_bit _ 10 rfl, hdouble, UInt32.toNat_zero]
      omega
    have hnext : m.toNat * 2 = a * 2 ^ (i + 1) := by rw [hm, pow_succ, Nat.mul_assoc]
    rw [half2float.renormalize]
    split_ifs with h
    · refine ⟨i, by omega, he, by rw [hdouble, hnext], ?_, ?_⟩ <;> rw [← hnext]
      · exact hbit.mp h
      · omega
    · refine renormalize_spec n _ _ (by rw [hdouble, hnext]) ?_ ?_ ?_ (by omega)
      · rw [hdouble]
        exact Nat.lt_of_not_le (mt hbit.mpr h)
      · rw [hdouble, Nat.mul_assoc, ← pow_succ']
        exact hge
      · rw [UInt32.toNat_add, he]
        exact Nat.mod_eq_of_lt (by simp; omega)

/-- Normal halves have room for thirteen more bits. -/
theorem magnitude_normal {n : ℕ} (hn : 2 ^ 10 ≤ n) :
    binary32.magnitude ((n + 112 * 2 ^ 10) * 2 ^ 13) = binary16.magnitude n := by
  obtain ⟨e, he⟩ : ∃ e, n / 2 ^ 10 = e + 1 := ⟨n / 2 ^ 10 - 1, by omega⟩
  have hexp : (n + 112 * 2 ^ 10) * 2 ^ 13 / 2 ^ 23 - 1 = e + 112 := by omega
  have hfrac : (n + 112 * 2 ^ 10) * 2 ^ 13 % 2 ^ 23 = n % 2 ^ 10 * 2 ^ 13 := by omega
  rw [magnitude32 (by omega), hexp, hfrac, BinaryFormat.magnitude, binary16.mag_of_le hn,
    show binary16.fraction = 10 from rfl, he, Nat.add_sub_cancel, show binary16.least = 24 from rfl]
  push_cast
  ring

/-- Subnormal halves are normal floats, once their leading bit is bit 10. -/
theorem magnitude_renormalized {n j : ℕ} (hj : j < 10) (hlo : 2 ^ 10 ≤ n * 2 ^ (j + 1))
    (hhi : n * 2 ^ (j + 1) < 2 ^ 11) :
    binary32.magnitude ((112 - j) * 2 ^ 23 + n * 2 ^ (j + 1) % 2 ^ 10 * 2 ^ 13) =
      binary16.magnitude n := by
  have hn : n < 2 ^ 10 := by
    have : n * 2 ≤ n * 2 ^ (j + 1) := Nat.mul_le_mul_left n (Nat.le_self_pow (by omega) 2)
    omega
  have hm : n * 2 ^ (j + 1) = 2 ^ 10 + n * 2 ^ (j + 1) % 2 ^ 10 := by omega
  have hfrac : ((2 ^ 23 + (n * 2 ^ (j + 1) % 2 ^ 10 * 2 ^ 13 : ℕ)) : ℚ) =
      n * 2 ^ (j + 1) * 2 ^ 13 := by
    have : ((n * 2 ^ (j + 1) : ℕ) : ℚ) = _ := congrArg (Nat.cast (R := ℚ)) hm
    push_cast at this ⊢
    rw [this]
    ring
  have hpow : (2 : ℚ) ^ (j + 1) * 2 ^ (111 - j) = 2 ^ 112 := by
    rw [← pow_add]
    congr 1
    omega
  rw [magnitude32 (by omega),
    show ((112 - j) * 2 ^ 23 + n * 2 ^ (j + 1) % 2 ^ 10 * 2 ^ 13) / 2 ^ 23 - 1 = 111 - j by omega,
    show ((112 - j) * 2 ^ 23 + n * 2 ^ (j + 1) % 2 ^ 10 * 2 ^ 13) % 2 ^ 23 =
      n * 2 ^ (j + 1) % 2 ^ 10 * 2 ^ 13 by omega,
    hfrac, BinaryFormat.magnitude, binary16.mag_of_lt hn, show binary16.least = 24 from rfl]
  linear_combination (n * 2 ^ 13 / 2 ^ 149 : ℚ) * hpow

/-- An exponent, and the fraction of a half in the place of a float's. -/
theorem toNat_fields {x : UInt32} {e : ℕ} (m : UInt32) (hx : x.toNat = e * 2 ^ 23) :
    (x ||| ((m &&& 0x03FF) <<< 13)).toNat = e * 2 ^ 23 + m.toNat % 2 ^ 10 * 2 ^ 13 := by
  have hlow : (m &&& 0x03FF).toNat = m.toNat % 2 ^ 10 := toNat_and_low m 10 rfl
  have hleft : ((m &&& 0x03FF) <<< 13).toNat = m.toNat % 2 ^ 10 * 2 ^ 13 := by
    rw [toNat_shiftLeft (by decide) (by simp [hlow]; omega), hlow]
    rfl
  rw [UInt32.toNat_or, hx, hleft, Nat.mul_comm e, ← Nat.two_pow_add_eq_or_of_lt (by omega)]

/-- `fl_half2float` keeps the sign and the value. -/
theorem half2float_widened (h : UInt16) :
    (half2float h).toNat / 2 ^ 31 = h.toNat / 2 ^ 15 ∧
      Widened (h.toNat % 2 ^ 15) ((half2float h).toNat % 2 ^ 31) := by
  have hem : (h &&& 0x7FFF).toUInt32.toNat = h.toNat % 2 ^ 15 := by
    rw [UInt16.toNat_toUInt32, toNat_and_low16 h 15 rfl]
  rw [← hem, half2float]
  generalize (h &&& 0x7FFF).toUInt32 = em
  have hsigned : ∀ f : UInt32, f.toNat < 2 ^ 31 ∧ Widened em.toNat f.toNat →
      (((h &&& 0x8000).toUInt32 <<< 16) ||| f).toNat / 2 ^ 31 = h.toNat / 2 ^ 15 ∧
        Widened em.toNat ((((h &&& 0x8000).toUInt32 <<< 16) ||| f).toNat % 2 ^ 31) := by
    rintro f ⟨hlt, hf⟩
    rw [toNat_signed32 h hlt, Nat.mul_add_div (by norm_num), Nat.mul_add_mod,
      Nat.div_eq_of_lt hlt, Nat.mod_eq_of_lt hlt]
    exact ⟨rfl, hf⟩
  dsimp only
  simp only [ge_iff_le, UInt32.le_iff_toNat_le, ← UInt32.toNat_inj, UInt32.reduceToNat,
    UInt32.or_assoc]
  split_ifs with hinf hnormal hzero
  · have hw : ((0x7F800000 : UInt32) ||| ((em &&& 0x03FF) <<< 13)).toNat =
        255 * 2 ^ 23 + em.toNat % 2 ^ 10 * 2 ^ 13 := toNat_fields em (by decide)
    exact hsigned _ ⟨by omega, fun h => by omega, fun h => by omega⟩
  · have hw : ((em + 0x1C000) <<< 13).toNat = (em.toNat + 112 * 2 ^ 10) * 2 ^ 13 := by
      have hadd : (em + 0x1C000).toNat = em.toNat + 112 * 2 ^ 10 := by
        rw [UInt32.toNat_add]
        exact Nat.mod_eq_of_lt (by simp; omega)
      rw [toNat_shiftLeft (by decide) (by simp [hadd]; omega), hadd]
      rfl
    refine hsigned _ ⟨by omega, fun _ => ?_, fun h => absurd h.ge hinf⟩
    rw [hw]
    exact magnitude_normal hnormal
  · have hmag : binary32.magnitude (0 : UInt32).toNat = binary16.magnitude em.toNat := by
      rw [hzero, UInt32.toNat_zero, BinaryFormat.magnitude_zero, BinaryFormat.magnitude_zero]
    have := hsigned 0 ⟨by decide, fun _ => hmag, fun h => absurd h.ge hinf⟩
    rwa [UInt32.or_zero] at this
  · obtain ⟨j, hj, he, hm, hlo, hhi⟩ := renormalize_spec 10 em (-1) (i := 0)
      (by rw [pow_zero, Nat.mul_one]) (by omega) (by omega) rfl (by omega)
    generalize half2float.renormalize 10 em (-1) = r at he hm
    have hexp : ((112 : UInt32) - r.2).toNat = 112 - j := by
      rw [UInt32.toNat_sub_of_le, he]
      · rfl
      · rw [UInt32.le_iff_toNat_le, he]
        exact (by omega : j ≤ 112)
    have hfield : (((112 : UInt32) - r.2) <<< 23).toNat = (112 - j) * 2 ^ 23 := by
      rw [toNat_shiftLeft (by decide) (by simp [hexp]; omega), hexp]
      rfl
    have hw := toNat_fields r.1 hfield
    rw [hm] at hw
    refine hsigned _ ⟨by omega, fun _ => ?_, fun h => absurd h.ge hinf⟩
    rw [hw]
    exact magnitude_renormalized hj hlo hhi

/-! ## Rounding -/

/-- The threshold lies half a step above the largest half. -/
theorem magnitude_lt_threshold {em : ℕ} : binary32.magnitude em < 65520 ↔ em < 0x477FF000 := by
  have h : binary32.magnitude 0x477FF000 = 65520 := by
    rw [magnitude32 (by norm_num)]
    norm_num
  rw [← h]
  exact binary32.magnitude_strictMono.lt_iff_lt

/-- Below the threshold, the result is the nearest half. -/
theorem float2half_roundsTo {u : UInt32} (h : |binary32.value u.toNat| < 65520) :
    binary16.RoundsTo (binary32.value u.toNat) (float2half u).toNat := by
  obtain ⟨hsign, hh⟩ := float2half_halved u
  rw [binary32.abs_value, magnitude_lt_threshold] at h
  refine .of_magnitude (binary32.magnitude_nonneg _) (hh.below h) ?_ (hh.nearest h) (by decide)
  exact congrArg ((-1 : ℚ) ^ ·) hsign

/-- Rounding undoes the conversion. -/
theorem float2half_half2float {h : UInt16} (hnan : ¬ binary16.IsNaN h.toNat) :
    float2half (half2float h) = h := by
  obtain ⟨hsign, hh⟩ := float2half_halved (half2float h)
  obtain ⟨hsign', hw⟩ := half2float_widened h
  have hle : h.toNat % 2 ^ 15 ≤ 0x7C00 := Nat.le_of_not_lt hnan
  have hkeep : (float2half (half2float h)).toNat % 2 ^ 15 = h.toNat % 2 ^ 15 := by
    rcases Nat.lt_or_eq_of_le hle with hlt | hinf
    · have hvalue := hw.value hlt
      have hsmall : (half2float h).toNat % 2 ^ 31 < 0x477FF000 := by
        rw [← magnitude_lt_threshold, hvalue]
        calc binary16.magnitude (h.toNat % 2 ^ 15) ≤ binary16.magnitude 0x7BFF :=
              binary16.magnitude_strictMono.monotone (Nat.le_of_lt_succ hlt)
          _ < 65520 := by
              rw [BinaryFormat.magnitude, binary16.mag_of_le (by norm_num [binary16])]
              norm_num [binary16]
      have hnear := hh.nearest hsmall
      rw [hvalue] at hnear
      exact hnear.eq_of_exact binary16.magnitude_strictMono
    · have hinf32 := hw.inf hinf
      rw [hinf]
      exact hh.overflow (by omega) (by omega)
  rw [← UInt16.toNat_inj]
  omega

/-- **Rounding to half precision.**  Every float keeps its sign; below 65520 it becomes the
nearest half, ties to even, and from there on infinity.  A half that becomes a float comes
back. -/
theorem float2half_nearest_even :
    (∀ u : UInt32, ¬ binary32.IsNaN u.toNat →
      binary16.signBit (float2half u).toNat = binary32.signBit u.toNat ∧
      (|binary32.value u.toNat| < 65520 →
        binary16.RoundsTo (binary32.value u.toNat) (float2half u).toNat) ∧
      (binary16.unsigned (float2half u).toNat = binary16.inf ↔
        65520 ≤ |binary32.value u.toNat| ∨ ¬ binary32.Finite u.toNat)) ∧
    ∀ h : UInt16, ¬ binary16.IsNaN h.toNat → float2half (half2float h) = h := by
  refine ⟨fun u hnan => ?_, fun h hnan => float2half_half2float hnan⟩
  obtain ⟨hsign, hh⟩ := float2half_halved u
  have hle : binary32.unsigned u.toNat ≤ 0x7F800000 := Nat.le_of_not_lt hnan
  refine ⟨hsign, float2half_roundsTo, ?_⟩
  rw [← not_lt, binary32.abs_value, magnitude_lt_threshold]
  constructor
  · intro hinf
    exact .inl fun hlow => absurd (hh.below hlow) (Nat.not_lt.mpr (ge_of_eq hinf))
  · rintro (hge | hinf)
    · exact hh.overflow (Nat.le_of_not_lt hge) hle
    · exact hh.overflow (Nat.le_trans (by decide) (Nat.le_of_not_lt hinf)) hle

/-- Just above one, the half is one; and one comes back. -/
theorem float2half_one :
    binary16.RoundsTo (binary32.value (0x3F800001 : UInt32).toNat) 0x3C00 ∧
      float2half (half2float 0x3C00) = 0x3C00 := by
  have habs : |binary32.value (0x3F800001 : UInt32).toNat| < 65520 := by
    rw [binary32.abs_value, magnitude_lt_threshold]
    decide
  exact ⟨(float2half_nearest_even.1 0x3F800001 (by decide)).2.1 habs,
    float2half_nearest_even.2 0x3C00 (by decide)⟩

-- The largest half, the last float below the threshold and the threshold; a carry out of the
-- subnormal halves; ties at half the least subnormal and above it.
example : [0x477FE000, 0x477FEFFF, 0x477FF000, 0x387FFFFF, 0x33000000, 0xB3000001].map float2half =
    [0x7BFF, 0x7BFF, 0x7C00, 0x0400, 0x0000, 0x8001] := by decide

end FastLlm
