import FastLlm.Lib.Loop
import Mathlib.Analysis.SpecialFunctions.Pow.Real
import Mathlib.Analysis.SpecialFunctions.Trigonometric.Basic

/-!
# Rotary embedding in exact arithmetic

`fl_op_rope_ds2` over the reals.  The running angle of a pair is the position times a factor of the
pair alone, so that every pair of a head is turned by an angle linear in the position and stretched
by a factor that is the same for all pairs.  The product of a query head and a key head then knows
the positions only through their difference (`ropeDs2_relative`).

## Main definitions

* `Elementary` — the functions of `math.h`.
* `RopeParams`, `RopeHeads` — the frequencies, and where the heads lie.
* `ropePair`, `ropeHead`, `ropeDs2` — a pair, a head, the operation.
* `pairFreq`, `ropeScale` — angle per position of a pair, and the stretching.
-/

namespace FastLlm

structure Elementary (K : Type) where
  pi : K
  log : K → K
  cos : K → K
  sin : K → K
  floor : K → K
  ceil : K → K
  pow : K → K → K

/-- The functions themselves. -/
noncomputable def Elementary.real : Elementary ℝ where
  pi := Real.pi
  log := Real.log
  cos := Real.cos
  sin := Real.sin
  floor x := ⌊x⌋
  ceil x := ⌈x⌉
  pow x y := x ^ y

/-- The frequencies and corrections of `RopeP`. -/
structure RopeParams (K : Type) where
  nRot : UInt32
  freqBase : K
  freqScale : K
  extFactor : K
  attnFactor : K
  betaFast : K
  betaSlow : K
  nCtxOrig : UInt32

/-- Where the heads lie: `head_stride` apart, the span to rotate at `rot_off` within each of
them. -/
structure RopeHeads (nRot : UInt32) where
  nHead : UInt32
  headStride : UInt32
  rotOff : UInt32
  within : rotOff.toNat + nRot.toNat ≤ headStride.toNat

section
variable {K : Type} [Field K] [LinearOrder K] (R : Elementary K)

/-- `fl_rope_corr_dim`. -/
def ropeCorrDimOf (nDims nCtxOrig beta base : K) : K :=
  nDims * R.log (nCtxOrig / (beta * 2 * R.pi)) / (2 * R.log base)

namespace RopeParams
variable (p : RopeParams K)

/-- `corr_lo` and `corr_hi`. -/
def corr : K × K :=
  let lo := R.floor (ropeCorrDimOf R p.nRot.toNat p.nCtxOrig.toNat p.betaFast p.freqBase)
  let hi := R.ceil (ropeCorrDimOf R p.nRot.toNat p.nCtxOrig.toNat p.betaSlow p.freqBase)
  let top : K := (p.nRot - 1).toNat
  (if lo < 0 then 0 else lo, if top < hi then top else hi)

/-- `th` and `mscale` of pair `k` at the running angle `theta`. -/
def angle (k : ℕ) (theta : K) : K × K :=
  let thetaInterp := p.freqScale * theta
  if p.extFactor ≠ 0 then
    let rampY := (k - (p.corr R).1) / max (1 / 1000) ((p.corr R).2 - (p.corr R).1)
    let rampY := 1 - min 1 (max 0 rampY)
    let rampMix := rampY * p.extFactor
    (thetaInterp * (1 - rampMix) + theta * rampMix,
      p.attnFactor * (1 + 1 / 10 * R.log (1 / p.freqScale)))
  else (thetaInterp, p.attnFactor)

/-- `theta_scale`. -/
def thetaScale : K := R.pow p.freqBase (-2 / p.nRot.toNat)

end RopeParams

variable (p : RopeParams K)

/-- One turn of the inner loop on the head at `v`: the buffer and `theta`. -/
def ropePair (v k : ℕ) (s : (ℕ → K) × K) : (ℕ → K) × K :=
  let a := p.angle R k s.2
  let c := R.cos a.1 * a.2
  let sn := R.sin a.1 * a.2
  let x0 := s.1 (v + 2 * k)
  let x1 := s.1 (v + 2 * k + 1)
  let buf := Function.update s.1 (v + 2 * k) (x0 * c - x1 * sn)
  (Function.update buf (v + 2 * k + 1) (x0 * sn + x1 * c), s.2 * p.thetaScale R)

/-- One turn of the outer loop. -/
def ropeHead (pos : K) (v : ℕ) (buf : ℕ → K) : ℕ → K :=
  (iter ((p.nRot.toNat + 1) / 2) (buf, pos) (ropePair R p v)).1

/-- `fl_op_rope_ds2`, on the buffer at its pointer. -/
def ropeDs2 (g : RopeHeads p.nRot) (pos : Int32) (buf : ℕ → K) : ℕ → K :=
  iter g.nHead.toNat buf fun h buf =>
    ropeHead R p pos.toInt (h * g.headStride.toNat + g.rotOff.toNat) buf

/-! ## A head in closed form -/

/-- The angle of pair `k` per position. -/
def pairFreq (k : ℕ) : K := (p.angle R k (p.thetaScale R ^ k)).1

/-- The stretching of every pair: `mscale`. -/
def ropeScale : K := (p.angle R 0 0).2

/-- The angle is linear, and the stretching does not depend on it. -/
theorem angle_mul (k : ℕ) (pos : K) :
    p.angle R k (pos * p.thetaScale R ^ k) = (pos * pairFreq R p k, ropeScale R p) := by
  simp only [pairFreq, ropeScale, RopeParams.angle]
  split
  · refine Prod.ext ?_ rfl
    simp only
    ring
  · refine Prod.ext ?_ rfl
    simp only
    ring

/-- A pair turned by `th` and stretched by `m`. -/
def turn (th m : K) (x : K × K) : K × K :=
  (x.1 * (R.cos th * m) - x.2 * (R.sin th * m), x.1 * (R.sin th * m) + x.2 * (R.cos th * m))

/-- Pair `k` of the span at `v`. -/
def pairAt (buf : ℕ → K) (v k : ℕ) : K × K := (buf (v + 2 * k), buf (v + 2 * k + 1))

/-- After `n` turns of the inner loop the first `n` pairs are turned, everything else is as before,
and `theta` has been multiplied `n` times. -/
structure Turned (pos : K) (v n : ℕ) (buf : ℕ → K) (s : (ℕ → K) × K) : Prop where
  pair : ∀ k < n, pairAt s.1 v k = turn R (pos * pairFreq R p k) (ropeScale R p) (pairAt buf v k)
  rest : ∀ e, (∀ i < 2 * n, e ≠ v + i) → s.1 e = buf e
  theta : s.2 = pos * p.thetaScale R ^ n

variable {R p} in
/-- A pair reads only the two places it writes. -/
theorem Turned.step {pos : K} {v n : ℕ} {buf : ℕ → K} {s : (ℕ → K) × K}
    (h : Turned R p pos v n buf s) : Turned R p pos v (n + 1) buf (ropePair R p v n s) := by
  have hangle : p.angle R n s.2 = (pos * pairFreq R p n, ropeScale R p) := by
    rw [h.theta, angle_mul]
  have hfresh : pairAt s.1 v n = pairAt buf v n := by
    simp only [pairAt, Prod.mk.injEq]
    exact ⟨h.rest _ fun i hi => by omega, h.rest _ fun i hi => by omega⟩
  have hx0 := congrArg Prod.fst hfresh
  have hx1 := congrArg Prod.snd hfresh
  simp only [pairAt] at hx0 hx1
  constructor
  · intro k hk
    rcases Nat.lt_succ_iff_lt_or_eq.mp hk with hlt | rfl
    · rw [← h.pair k hlt]
      simp only [pairAt, ropePair, Prod.mk.injEq]
      constructor <;>
        rw [Function.update_of_ne (by omega), Function.update_of_ne (by omega)]
    · simp only [pairAt, ropePair, hangle, hx0, hx1, turn, Prod.mk.injEq]
      constructor
      · rw [Function.update_of_ne (by omega), Function.update_self]
      · rw [Function.update_self]
  · intro e he
    have h0 : e ≠ v + 2 * n := he (2 * n) (by omega)
    have h1 : e ≠ v + 2 * n + 1 := he (2 * n + 1) (by omega)
    simp only [ropePair]
    rw [Function.update_of_ne h1, Function.update_of_ne h0]
    exact h.rest e fun i hi => he i (by omega)
  · simp only [ropePair]
    rw [h.theta, pow_succ, mul_assoc]

/-- A head. -/
theorem ropeHead_turned (heven : 2 ∣ p.nRot.toNat) (pos : K) (v : ℕ) (buf : ℕ → K) :
    (∀ k < p.nRot.toNat / 2, pairAt (ropeHead R p pos v buf) v k =
      turn R (pos * pairFreq R p k) (ropeScale R p) (pairAt buf v k)) ∧
    ∀ e, (∀ i < p.nRot.toNat, e ≠ v + i) → ropeHead R p pos v buf e = buf e := by
  have hcount : (p.nRot.toNat + 1) / 2 = p.nRot.toNat / 2 := by omega
  have hspan : 2 * (p.nRot.toNat / 2) = p.nRot.toNat := Nat.mul_div_cancel' heven
  have h : Turned R p pos v (p.nRot.toNat / 2) buf
      (iter (p.nRot.toNat / 2) (buf, pos) (ropePair R p v)) := by
    refine iter_induction (P := fun n s => Turned R p pos v n buf s) ?_ fun k _ s hs => hs.step
    exact ⟨by simp, by simp, by simp⟩
  rw [ropeHead, hcount]
  refine ⟨h.pair, fun e he => h.rest e fun i hi => he i (by omega)⟩

/-! ## The heads -/

/-- Where the span of head `h` begins. -/
def RopeHeads.span {nRot : UInt32} (g : RopeHeads nRot) (h : ℕ) : ℕ :=
  h * g.headStride.toNat + g.rotOff.toNat

/-- The spans of two heads have no place in common. -/
theorem RopeHeads.span_apart {nRot : UInt32} (g : RopeHeads nRot) {h h' i i' : ℕ} (hne : h ≠ h')
    (hi : i < nRot.toNat) (hi' : i' < nRot.toNat) : g.span h + i ≠ g.span h' + i' := by
  have hw := g.within
  simp only [RopeHeads.span]
  rcases Nat.lt_or_gt_of_ne hne with hlt | hlt
  · have := Nat.mul_le_mul_right g.headStride.toNat (Nat.succ_le_of_lt hlt)
    rw [Nat.succ_mul] at this
    omega
  · have := Nat.mul_le_mul_right g.headStride.toNat (Nat.succ_le_of_lt hlt)
    rw [Nat.succ_mul] at this
    omega

/-- **The operation in closed form**: every pair of every head is turned, and nothing else is
written. -/
theorem ropeDs2_turned (heven : 2 ∣ p.nRot.toNat) (g : RopeHeads p.nRot) (pos : Int32)
    (buf : ℕ → K) :
    (∀ h < g.nHead.toNat, ∀ k < p.nRot.toNat / 2, pairAt (ropeDs2 R p g pos buf) (g.span h) k =
      turn R (pos.toInt * pairFreq R p k) (ropeScale R p) (pairAt buf (g.span h) k)) ∧
    ∀ e, (∀ h < g.nHead.toNat, ∀ i < p.nRot.toNat, e ≠ g.span h + i) →
      ropeDs2 R p g pos buf e = buf e := by
  refine iter_induction (P := fun n b =>
    (∀ h < n, ∀ k < p.nRot.toNat / 2, pairAt b (g.span h) k =
      turn R (pos.toInt * pairFreq R p k) (ropeScale R p) (pairAt buf (g.span h) k)) ∧
    ∀ e, (∀ h < n, ∀ i < p.nRot.toNat, e ≠ g.span h + i) → b e = buf e)
    ⟨by simp, by simp⟩ fun n hn b hb => ?_
  obtain ⟨hpair, hrest⟩ := ropeHead_turned R p heven pos.toInt (g.span n) b
  -- the other heads are outside the span
  have hother : ∀ h, h ≠ n → ∀ i < p.nRot.toNat,
      ropeHead R p pos.toInt (g.span n) b (g.span h + i) = b (g.span h + i) :=
    fun h hne i hi => hrest _ fun i' hi' => g.span_apart hne hi hi'
  refine ⟨fun h hh k hk => ?_, fun e he => ?_⟩
  · rcases Nat.lt_succ_iff_lt_or_eq.mp hh with hlt | rfl
    · rw [← hb.1 h hlt k hk]
      simp only [pairAt, Prod.mk.injEq, Nat.add_assoc]
      exact ⟨hother h (by omega) _ (by omega), hother h (by omega) _ (by omega)⟩
    · have hfresh : pairAt b (g.span h) k = pairAt buf (g.span h) k := by
        simp only [pairAt, Prod.mk.injEq, Nat.add_assoc]
        exact ⟨hb.2 _ fun h' hh' i hi => g.span_apart (by omega) (by omega) hi,
          hb.2 _ fun h' hh' i hi => g.span_apart (by omega) (by omega) hi⟩
      rw [← hfresh]
      exact hpair k hk
  · have := hrest e fun i hi => he n (by omega) i hi
    exact this.trans (hb.2 e fun h hh i hi => he h (by omega) i hi)

end

/-! ## Relative positions -/

/-- The product of two pairs. -/
def pairDot {K : Type} [Field K] (x y : K × K) : K := x.1 * y.1 + x.2 * y.2

/-- Two pairs turned by `a` and by `b`. -/
theorem pairDot_turn (a b m : ℝ) (x y : ℝ × ℝ) :
    pairDot (turn .real a m x) (turn .real b m y) =
      m ^ 2 * (Real.cos (a - b) * pairDot x y + Real.sin (a - b) * (x.1 * y.2 - x.2 * y.1)) := by
  rw [Real.cos_sub, Real.sin_sub]
  simp only [pairDot, turn, Elementary.real]
  ring

/-- A turned pair is as long as before, up to the stretching. -/
theorem pairDot_turn_self (th m : ℝ) (x : ℝ × ℝ) :
    pairDot (turn .real th m x) (turn .real th m x) = m ^ 2 * pairDot x x := by
  rw [pairDot_turn, sub_self, Real.cos_zero, Real.sin_zero]
  ring

/-- The product of two spans, pair by pair. -/
theorem sum_pairs {n : ℕ} (heven : 2 ∣ n) (q k : ℕ → ℝ) (v w : ℕ) :
    ∑ i ∈ Finset.range n, q (v + i) * k (w + i) =
      ∑ j ∈ Finset.range (n / 2), pairDot (pairAt q v j) (pairAt k w j) := by
  conv_lhs => rw [← Nat.div_mul_cancel heven]
  rw [sum_range_mul]
  refine Finset.sum_congr rfl fun j _ => ?_
  rw [Finset.sum_range_succ, Finset.sum_range_one]
  simp only [pairDot, pairAt, mul_comm j 2, add_zero, Nat.add_assoc]

/-- **Rotary embedding.**  For an even span: the product of a query head at position `a` and a key
head at position `b` depends on `a - b` only; every pair is stretched by the same factor, at any
position; and nothing outside the spans is written. -/
theorem ropeDs2_relative (p : RopeParams ℝ) (heven : 2 ∣ p.nRot.toNat) :
    (∀ (gq gk : RopeHeads p.nRot) (hq hk : ℕ), hq < gq.nHead.toNat → hk < gk.nHead.toNat →
      ∀ q k : ℕ → ℝ, ∃ F : ℤ → ℝ, ∀ a b : Int32,
        ∑ i ∈ Finset.range p.nRot.toNat,
          ropeDs2 .real p gq a q (gq.span hq + i) * ropeDs2 .real p gk b k (gk.span hk + i) =
            F (a.toInt - b.toInt)) ∧
    (∀ (g : RopeHeads p.nRot) (pos : Int32) (x : ℕ → ℝ), ∀ h < g.nHead.toNat,
      ∀ j < p.nRot.toNat / 2,
        let y := pairAt (ropeDs2 .real p g pos x) (g.span h) j
        pairDot y y =
          ropeScale .real p ^ 2 * pairDot (pairAt x (g.span h) j) (pairAt x (g.span h) j)) ∧
    ∀ (g : RopeHeads p.nRot) (pos : Int32) (x : ℕ → ℝ) (e : ℕ),
      (∀ h < g.nHead.toNat, ∀ i < p.nRot.toNat, e ≠ g.span h + i) →
        ropeDs2 .real p g pos x e = x e := by
  refine ⟨fun gq gk hq hk hhq hhk q k => ?_, fun g pos x h hh j hj => ?_, fun g pos x e he => ?_⟩
  · refine ⟨fun d => ∑ j ∈ Finset.range (p.nRot.toNat / 2), ropeScale .real p ^ 2 *
      (Real.cos (d * pairFreq .real p j) *
          pairDot (pairAt q (gq.span hq) j) (pairAt k (gk.span hk) j) +
        Real.sin (d * pairFreq .real p j) *
          ((pairAt q (gq.span hq) j).1 * (pairAt k (gk.span hk) j).2 -
            (pairAt q (gq.span hq) j).2 * (pairAt k (gk.span hk) j).1)), fun a b => ?_⟩
    rw [sum_pairs heven]
    refine Finset.sum_congr rfl fun j hj => ?_
    have hj := Finset.mem_range.mp hj
    rw [(ropeDs2_turned .real p heven gq a q).1 hq hhq j hj,
      (ropeDs2_turned .real p heven gk b k).1 hk hhk j hj, pairDot_turn, ← sub_mul]
    push_cast
    rfl
  · simp only
    rw [(ropeDs2_turned .real p heven g pos x).1 h hh j hj, pairDot_turn_self]
  · exact (ropeDs2_turned .real p heven g pos x).2 e he

/-! ## Two query heads and a key

The span of a query head begins after two elements; the key is in a buffer of its own. -/

/-- Spans of four, with the corrections on. -/
noncomputable def fourParams : RopeParams ℝ := ⟨4, 10000, 1 / 40, 1, 1, 32, 1, 4096⟩

def queryHeads : RopeHeads fourParams.nRot := ⟨2, 6, 2, by decide⟩

def keyHead : RopeHeads fourParams.nRot := ⟨1, 4, 0, by decide⟩

theorem ropeDs2_relative_four : ∃ F : ℤ → ℝ, ∀ a b : Int32,
    ∑ i ∈ Finset.range fourParams.nRot.toNat,
      ropeDs2 .real fourParams queryHeads a (fun e => e) (queryHeads.span 1 + i) *
        ropeDs2 .real fourParams keyHead b (fun e => e) (keyHead.span 0 + i) =
      F (a.toInt - b.toInt) :=
  (ropeDs2_relative fourParams (by decide)).1 queryHeads keyHead 1 0 (by decide) (by decide) _ _

end FastLlm
