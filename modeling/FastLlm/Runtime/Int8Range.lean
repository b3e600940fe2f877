import FastLlm.Lib.Checked
import FastLlm.Lib.Neon
import FastLlm.Runtime.ActQ8
import FastLlm.Runtime.ShadowDot

/-!
# The integers of the int8 dots

The int8 reference dots and the dots on shadows once more, with every `int` operation checked: a
result that is not an `int32_t` has no value.  On the blocks that `ACT_Q8` writes all of them have
one, whatever the bytes of the weights, and the result is that of the dots in exact integers.  So
no accumulator leaves its type, at any partial sum (`int8Dots_inside`).

## Main definitions

* `dotI8Q80Checked`, …, `dotI8Q50ShadowChecked` — the dots.
* `CodesOk` — the codes of a block.
-/

namespace FastLlm

/-! ## The dots, checked -/

/-- `fl_idot32`. -/
def idot32Checked (a b : ℕ → UInt8) : Option ℤ := sum32 32 fun i => mul32 (i8 (a i)) (i8 (b i))

section
variable {F : Type} (A : Arith F)

/-- `fl_dot_i8_q8_0`. -/
def dotI8Q80Checked (row : ℕ → UInt8) (xq : ℕ → BlkQ81) (cols : ℕ) : Option F :=
  (iter (cols / 32) (some (acc0 A)) fun b s => s.bind fun a4 => do
    let W := off row (b * 34)
    let idot ← idot32Checked (off W 2) (xq b).qs
    pure (fmaAt A a4 (b % 4) (A.mul (A.ofHalf (le16 W 0)) (A.ofHalf (xq b).d))
      (A.ofInt idot))).map (fold4 A)

/-- `fl_dot_i8_q5_0`. -/
def dotI8Q50Checked (row : ℕ → UInt8) (xq : ℕ → BlkQ81) (cols : ℕ) : Option F :=
  (iter (cols / 32) (some (acc0 A)) fun b s => s.bind fun a4 => do
    let W := off row (b * 22)
    let qh := le32 W 2
    let qs := off W 6
    let idot ← sum32 16 fun j => do
      let lo := (qs j &&& (0x0F : UInt8)) ||| (((qh >>> UInt32.ofNat j) <<< 4) &&& 0x10).toUInt8
      let hi := (qs j >>> 4) ||| ((qh >>> UInt32.ofNat (j + 12)) &&& 0x10).toUInt8
      let a ← mul32 lo.toNat (i8 ((xq b).qs j))
      let b ← mul32 hi.toNat (i8 ((xq b).qs (16 + j)))
      add32 a b
    let xsum ← sum32 32 fun i => some (i8 ((xq b).qs i))
    let t ← mul32 16 xsum
    let t ← sub32 idot t
    pure (fmaAt A a4 (b % 4) (A.mul (A.ofHalf (le16 W 0)) (A.ofHalf (xq b).d))
      (A.ofInt t))).map (fold4 A)

/-- `fl_dot_i8_q4_K`. -/
def dotI8Q4KChecked (row : ℕ → UInt8) (xq : ℕ → BlkQ81) (cols : ℕ) : Option F :=
  (iter (cols / 256) (some (acc0 A)) fun sb s => s.bind fun a4 =>
    let W := off row (sb * 144)
    let d := A.ofHalf (le16 W 0)
    let dmin := A.ofHalf (le16 W 2)
    iter 8 (some a4) fun g s => s.bind fun a4 => do
      let sc := A.ofU8 (q4kScale (off W 4) g)
      let mn := A.ofU8 (q4kMin (off W 4) g)
      let xg := xq (sb * 8 + g)
      let sums ← sumPair32 32 (fun i => mul32 (q4kNibble W g i).toNat (i8 (xg.qs i)))
        fun i => some (i8 (xg.qs i))
      let dx := A.ofHalf xg.d
      let a4 := fmaAt A a4 (g % 4) (A.mul (A.mul d sc) dx) (A.ofInt sums.1)
      pure (fmaAt A a4 (g % 4) (A.mul (A.neg (A.mul dmin mn)) dx) (A.ofInt sums.2))).map (fold4 A)

/-- `fl_dot_i8_q6_K`. -/
def dotI8Q6KChecked (row : ℕ → UInt8) (xq : ℕ → BlkQ81) (cols : ℕ) : Option F :=
  (iter (cols / 256) (some (acc0 A)) fun sb s => s.bind fun a4 =>
    let W := off row (sb * 210)
    let d := A.ofHalf (le16 W 208)
    iter 2 (some a4) fun h s => s.bind fun a4 =>
      let sc := off W (192 + h * 8)
      iter 4 (some a4) fun s s' => s'.bind fun a4 =>
        let xg := xq (sb * 8 + h * 4 + s)
        let dx := A.ofHalf xg.d
        iter 2 (some a4) fun k16 s' => s'.bind fun a4 => do
          let sums ← sumPair32 16
            (fun i => mul32 (q6Span W h s (k16 * 16 + i)).toNat (i8 (xg.qs (k16 * 16 + i))))
            fun i => some (i8 (xg.qs (k16 * 16 + i)))
          let t ← mul32 32 sums.2
          let t ← sub32 sums.1 t
          let t ← mul32 (i8 (sc (2 * s + k16))) t
          let ti := h * 8 + s * 2 + k16
          pure (fmaAt A a4 (ti % 4) (A.mul d dx) (A.ofInt t))).map (fold4 A)

/-- `fl_dot_i8k_q4_K`. -/
def dotI8kQ4KChecked (row : ℕ → UInt8) (xk : ℕ → BlkQ8K F) (cols : ℕ) : Option F :=
  (iter (cols / 256) (some (acc0 A)) fun sb s => s.bind fun a4 => do
    let W := off row (sb * 144)
    let d := A.ofHalf (le16 W 0)
    let dmin := A.ofHalf (le16 W 2)
    let dk := (xk sb).d
    let sums ← sumPair32 8
      (fun g => do
        let xg := off (xk sb).qs (g * 32)
        let idot ← sum32 32 fun i => mul32 (q4kNibble W g i).toNat (i8 (xg i))
        mul32 (q4kScale (off W 4) g).toNat idot)
      fun g => do
        let bs ← add32 ((xk sb).bsums (2 * g)) ((xk sb).bsums (2 * g + 1))
        mul32 (q4kMin (off W 4) g).toNat bs
    let a4 := fmaAt A a4 (sb % 4) (A.mul d dk) (A.ofInt sums.1)
    pure (fmaAt A a4 (sb % 4) (A.neg (A.mul dmin dk)) (A.ofInt sums.2))).map (fold4 A)

/-- `fl_dot_i8k_q6_K`. -/
def dotI8kQ6KChecked (row : ℕ → UInt8) (xk : ℕ → BlkQ8K F) (cols : ℕ) : Option F :=
  (iter (cols / 256) (some (acc0 A)) fun sb s => s.bind fun a4 => do
    let W := off row (sb * 210)
    let d := A.ofHalf (le16 W 208)
    let dk := (xk sb).d
    let iacc ← iter 2 (some 0) fun h s => iter 4 s fun sp s => iter 2 s fun k16 => accumulate do
      let sc := off W (192 + h * 8)
      let xg := off (xk sb).qs ((h * 4 + sp) * 32)
      let idot ← sum32 16 fun i =>
        mul32 (q6Span W h sp (k16 * 16 + i)).toNat (i8 (xg (k16 * 16 + i)))
      let bs := (xk sb).bsums (2 * (h * 4 + sp) + k16)
      let t ← mul32 32 bs
      let t ← sub32 idot t
      mul32 (i8 (sc (2 * sp + k16))) t
    pure (fmaAt A a4 (sb % 4) (A.mul d dk) (A.ofInt iacc))).map (fold4 A)

/-- `dot_i8k_q4_K_shadow`. -/
def dotI8kQ4KShadowChecked (srow : ℕ → UInt8) (xk : ℕ → BlkQ8K F) (cols : ℕ) : Option F :=
  (iter (cols / 256) (some (acc0 A)) fun sb s => s.bind fun a4 => do
    let o := off srow (sb * 280)
    let d := A.ofBits (le32 o 0)
    let dmin := A.ofBits (le32 o 4)
    let sc8 := off o 8
    let mn8 := off o 16
    let qs := off o 24
    let sums ← sumPair32 8
      (fun g => do
        let w := off qs (g / 2 * 64 + g % 2 * 32)
        let xg := off (xk sb).qs (g * 32)
        let idot ← sum32 32 fun i => mul32 (i8 (w i)) (i8 (xg i))
        mul32 (sc8 g).toNat idot)
      fun g => do
        let bs ← add32 ((xk sb).bsums (2 * g)) ((xk sb).bsums (2 * g + 1))
        mul32 (mn8 g).toNat bs
    let dk := (xk sb).d
    let a4 := fmaAt A a4 (sb % 4) (A.mul d dk) (A.ofInt sums.1)
    pure (fmaAt A a4 (sb % 4) (A.neg (A.mul dmin dk)) (A.ofInt sums.2))).map (fold4 A)

/-- `dot_i8_q5_0_shadow`. -/
def dotI8Q50ShadowChecked (srow : ℕ → UInt8) (xq : ℕ → BlkQ81) (cols : ℕ) : Option F :=
  (iter (cols / 32) (some (acc0 A)) fun b s => s.bind fun a4 => do
    let o := off srow (b * 40)
    let d := A.ofBits (le32 o 0)
    let w := off o 4
    let sums ← sumPair32 32 (fun i => mul32 (i8 (w i)) (i8 ((xq b).qs i)))
      fun i => some (i8 ((xq b).qs i))
    let t ← mul32 16 sums.2
    let t ← sub32 sums.1 t
    pure (fmaAt A a4 (b % 4) (A.mul d (A.ofHalf (xq b).d)) (A.ofInt t))).map (fold4 A)

end

/-! ## Bounds -/

/-- The first `n` codes are at most 127. -/
def CodesOk (n : ℕ) (qs : ℕ → UInt8) : Prop := ∀ i < n, |i8 (qs i)| ≤ 127

theorem abs_toNat_le (b : UInt8) : |(b.toNat : ℤ)| ≤ 255 := by
  have h := b.toNat_lt
  rw [abs_of_nonneg (by omega)]
  omega

section
variable {F : Type} (A : Arith F)

/-- A checked loop over blocks. -/
theorem blocks_checked {n : ℕ} {f : ℕ → (ℕ → F) → Option (ℕ → F)} {g : ℕ → (ℕ → F) → ℕ → F}
    (h : ∀ b < n, ∀ a, f b a = some (g b a)) :
    (iter n (some (acc0 A)) fun b s => s.bind (f b)).map (fold4 A) =
      some (fold4 A (iter n (acc0 A) g)) := by
  rw [iter_bind h, Option.map_some]

end

/-- A product of a byte, signed or not, with a code. -/
theorem mul32_code {w : ℤ} {q : UInt8} (hw : |w| ≤ 255) (hq : |i8 q| ≤ 127) :
    mul32 w (i8 q) = some (w * i8 q) ∧ |w * i8 q| ≤ 32385 :=
  ⟨mul32_eq hw hq (by decide), abs_mul_le hw hq⟩

/-- A sum of such products. -/
theorem sum32_mul {n : ℕ} {w : ℕ → ℤ} {qs : ℕ → UInt8} (hn : n ≤ 32) (hq : CodesOk n qs)
    (hw : ∀ i < n, |w i| ≤ 255) :
    sum32 n (fun i => mul32 (w i) (i8 (qs i))) = some (isum n fun i => w i * i8 (qs i)) ∧
      |isum n fun i => w i * i8 (qs i)| ≤ n * 32385 := by
  rw [isum_eq]
  exact ⟨sum32_eq (fun i hi => (mul32_code (hw i hi) (hq i hi)).1)
      (fun i hi => (mul32_code (hw i hi) (hq i hi)).2) (by omega),
    abs_sum_le fun i hi => (mul32_code (hw i hi) (hq i hi)).2⟩

/-- The sum of codes. -/
theorem sum32_codes {n : ℕ} {qs : ℕ → UInt8} (hn : n ≤ 32) (hq : CodesOk n qs) :
    sum32 n (fun i => some (i8 (qs i))) = some (isum n fun i => i8 (qs i)) ∧
      |isum n fun i => i8 (qs i)| ≤ n * 127 := by
  rw [isum_eq]
  exact ⟨sum32_eq (fun i _ => rfl) hq (by omega), abs_sum_le hq⟩

theorem CodesOk.off {n m k : ℕ} {qs : ℕ → UInt8} (h : CodesOk n qs) (hk : k + m ≤ n) :
    CodesOk m (off qs k) := fun i hi => h (k + i) (by omega)

theorem CodesOk.mono {n m : ℕ} {qs : ℕ → UInt8} (h : CodesOk n qs) (hm : m ≤ n) : CodesOk m qs :=
  fun i hi => h i (by omega)

theorem abs_i8_le_255 (b : UInt8) : |i8 b| ≤ 255 :=
  (Neon.abs_i8_le b).trans (by decide)

/-- An offset of a sum of products: `idot - c * isum`. -/
theorem sub32_offset {a b c A B : ℤ} (hc : 0 ≤ c) (ha : |a| ≤ A) (hb : |b| ≤ B)
    (hAB : A + c * B ≤ 2147483647) :
    mul32 c b = some (c * b) ∧ sub32 a (c * b) = some (a - c * b) ∧ |a - c * b| ≤ A + c * B := by
  have hA : 0 ≤ A := (abs_nonneg a).trans ha
  have hcb : |c * b| ≤ c * B := abs_mul_le (abs_of_nonneg hc).le hb
  exact ⟨int32_eq hcb (by omega), sub32_eq ha hcb hAB, (abs_sub a (c * b)).trans (add_le_add ha hcb)⟩

/-! ## The dots on codes -/

section
variable {F : Type} (A : Arith F) {xq : ℕ → BlkQ81} {xk : ℕ → BlkQ8K F} {cols : ℕ}

theorem dotI8Q80Checked_eq (row : ℕ → UInt8) (hx : ∀ b < cols / 32, CodesOk 32 (xq b).qs) :
    dotI8Q80Checked A row xq cols = some (dotI8Q80 A row xq cols) := by
  refine blocks_checked A fun b hb a => ?_
  have hdot := (sum32_mul (le_refl 32) (hx b hb) fun i _ =>
    abs_i8_le_255 (off (off row (b * 34)) 2 i)).1
  simp only [idot32Checked, hdot, Option.bind_eq_bind, Option.bind_some, Option.pure_def, idot32]

/-- Two products in one round. -/
theorem pair32_code {v w : UInt8} {p q : UInt8} (hp : |i8 p| ≤ 127) (hq : |i8 q| ≤ 127) :
    ((mul32 v.toNat (i8 p)).bind fun a => (mul32 w.toNat (i8 q)).bind fun b => add32 a b) =
        some (v.toNat * i8 p + w.toNat * i8 q) ∧
      |v.toNat * i8 p + w.toNat * i8 q| ≤ 64770 := by
  obtain ⟨h1, h2⟩ := mul32_code (abs_toNat_le v) hp
  obtain ⟨h3, h4⟩ := mul32_code (abs_toNat_le w) hq
  refine ⟨?_, (abs_add_le _ _).trans (add_le_add h2 h4)⟩
  rw [h1, h3]
  exact add32_eq h2 h4 (by decide)

theorem dotI8Q50Checked_eq (row : ℕ → UInt8) (hx : ∀ b < cols / 32, CodesOk 32 (xq b).qs) :
    dotI8Q50Checked A row xq cols = some (dotI8Q50 A row xq cols) := by
  refine blocks_checked A fun b hb a => ?_
  have hpair (v w : ℕ → UInt8) (j : ℕ) (hj : j < 16) := pair32_code (v := v j) (w := w j)
    (hx b hb j (by omega)) (hx b hb (16 + j) (by omega))
  have hdot (v w : ℕ → UInt8) := sum32_eq (fun j hj => (hpair v w j hj).1)
    (fun j hj => (hpair v w j hj).2) (by decide)
  have hdotle (v w : ℕ → UInt8) := abs_sum_le fun j hj => (hpair v w j hj).2
  obtain ⟨hsum, hsumle⟩ := sum32_codes (le_refl 32) (hx b hb)
  have hoff (v w : ℕ → UInt8) := sub32_offset (c := 16) (by decide) (hdotle v w)
    hsumle (by decide)
  simp only [← isum_eq] at hdot hoff
  have hmul := mul32_eq (show |(16 : ℤ)| ≤ 16 by decide) hsumle (by decide)
  simp only [Option.bind_eq_bind, Option.pure_def, hsum, Option.bind_some, hmul]
  rw [hdot (fun j => (off (off row (b * 22)) 6 j &&& (0x0F : UInt8)) |||
      (((le32 (off row (b * 22)) 2 >>> UInt32.ofNat j) <<< 4) &&& 0x10).toUInt8)
    fun j => (off (off row (b * 22)) 6 j >>> 4) |||
      ((le32 (off row (b * 22)) 2 >>> UInt32.ofNat (j + 12)) &&& 0x10).toUInt8,
    Option.bind_some, (hoff _ _).2.1, Option.bind_some]

theorem dotI8Q4KChecked_eq (row : ℕ → UInt8) (hx : ∀ b < cols / 32, CodesOk 32 (xq b).qs) :
    dotI8Q4KChecked A row xq cols = some (dotI8Q4K A row xq cols) := by
  refine blocks_checked A fun sb hsb a => iter_bind fun g hg a => ?_
  have hcodes : CodesOk 32 (xq (sb * 8 + g)).qs := hx _ (by omega)
  have hpair := sumPair32_eq
    (sum32_mul (le_refl 32) hcodes fun i _ => abs_toNat_le (q4kNibble (off row (sb * 144)) g i)).1
    (sum32_codes (le_refl 32) hcodes).1
  simp only [hpair, Option.bind_eq_bind, Option.bind_some, Option.pure_def]

theorem dotI8Q6KChecked_eq (row : ℕ → UInt8) (hx : ∀ b < cols / 32, CodesOk 32 (xq b).qs) :
    dotI8Q6KChecked A row xq cols = some (dotI8Q6K A row xq cols) := by
  refine blocks_checked A fun sb hsb a => iter_bind fun h hh a => iter_bind fun s hs a =>
    iter_bind fun k16 hk a => ?_
  have hcodes : CodesOk 16 (off (xq (sb * 8 + h * 4 + s)).qs (k16 * 16)) :=
    (hx _ (by omega)).off (by omega)
  obtain ⟨hdot, hdotle⟩ := sum32_mul (show 16 ≤ 32 by decide) hcodes fun i _ =>
    abs_toNat_le (q6Span (off row (sb * 210)) h s (k16 * 16 + i))
  obtain ⟨hsum, hsumle⟩ := sum32_codes (show 16 ≤ 32 by decide) hcodes
  obtain ⟨hmul, hsub, hle⟩ := sub32_offset (c := 32) (by decide) hdotle hsumle (by decide)
  have hscale := mul32_eq
    (Neon.abs_i8_le (off (off row (sb * 210)) (192 + h * 8) (2 * s + k16))) hle (by decide)
  have hpair := sumPair32_eq hdot hsum
  simp only [off_apply] at hpair hmul hsub hscale
  simp only [off_apply, hpair, hmul, hsub, hscale, Option.bind_eq_bind, Option.bind_some,
    Option.pure_def]

/-! ## The dots on superblocks -/

/-- The codes of a superblock are at most 127 and its sums at most sixteen times that. -/
structure SuperOk (b : BlkQ8K F) : Prop where
  codes : CodesOk 256 b.qs
  sums : ∀ g < 16, |b.bsums g| ≤ 2032

/-- Eight groups, with a scale and a min each. -/
theorem groups_checked {b : BlkQ8K F} (hb : SuperOk b) (w : ℕ → ℕ → ℤ) (sc mn : ℕ → UInt8)
    (hw : ∀ g < 8, ∀ i < 32, |w g i| ≤ 255) :
    sumPair32 8
      (fun g => do
        let idot ← sum32 32 fun i => mul32 (w g i) (i8 (off b.qs (g * 32) i))
        mul32 (sc g).toNat idot)
      (fun g => do
        let bs ← add32 (b.bsums (2 * g)) (b.bsums (2 * g + 1))
        mul32 (mn g).toNat bs) =
    some (isum 8 fun g => (sc g).toNat * isum 32 fun i => w g i * i8 (off b.qs (g * 32) i),
      isum 8 fun g => (mn g).toNat * (b.bsums (2 * g) + b.bsums (2 * g + 1))) := by
  have hdot (g : ℕ) (hg : g < 8) := sum32_mul (le_refl 32)
    (hb.codes.off (show g * 32 + 32 ≤ 256 by omega)) (hw g hg)
  have hbs (g : ℕ) (hg : g < 8) := hb.sums (2 * g) (by omega)
  have hbs' (g : ℕ) (hg : g < 8) := hb.sums (2 * g + 1) (by omega)
  have hle (g : ℕ) (hg : g < 8) : |b.bsums (2 * g) + b.bsums (2 * g + 1)| ≤ 2032 + 2032 :=
    (abs_add_le _ _).trans (add_le_add (hbs g hg) (hbs' g hg))
  rw [isum_eq, isum_eq]
  apply sumPair32_eq
  · refine sum32_eq (fun g hg => ?_) (fun g hg => abs_mul_le (abs_toNat_le _) (hdot g hg).2)
      (by decide)
    rw [(hdot g hg).1]
    exact mul32_eq (abs_toNat_le _) (hdot g hg).2 (by decide)
  · refine sum32_eq (fun g hg => ?_) (fun g hg => abs_mul_le (abs_toNat_le _) (hle g hg))
      (by decide)
    rw [add32_eq (hbs g hg) (hbs' g hg) (by decide)]
    exact mul32_eq (abs_toNat_le _) (hle g hg) (by decide)

theorem dotI8kQ4KChecked_eq (row : ℕ → UInt8) (hx : ∀ b < cols / 256, SuperOk (xk b)) :
    dotI8kQ4KChecked A row xk cols = some (dotI8kQ4K A row xk cols) := by
  refine blocks_checked A fun sb hsb a => ?_
  have hpair := groups_checked (hx sb hsb) (fun g i => (q4kNibble (off row (sb * 144)) g i).toNat)
    (q4kScale (off (off row (sb * 144)) 4)) (q4kMin (off (off row (sb * 144)) 4))
    fun g _ i _ => abs_toNat_le _
  simp only [Option.bind_eq_bind] at hpair
  simp only [hpair, Option.bind_eq_bind, Option.bind_some, Option.pure_def]

theorem dotI8kQ4KShadowChecked_eq (srow : ℕ → UInt8) (hx : ∀ b < cols / 256, SuperOk (xk b)) :
    dotI8kQ4KShadowChecked A srow xk cols = some (dotI8kQ4KShadow A srow xk cols) := by
  refine blocks_checked A fun sb hsb a => ?_
  have hpair := groups_checked (hx sb hsb)
    (fun g i => i8 (off (off (off srow (sb * 280)) 24) (g / 2 * 64 + g % 2 * 32) i))
    (off (off srow (sb * 280)) 8) (off (off srow (sb * 280)) 16) fun g _ i _ => abs_i8_le_255 _
  simp only [Option.bind_eq_bind] at hpair
  simp only [hpair, Option.bind_eq_bind, Option.bind_some, Option.pure_def]

theorem dotI8Q50ShadowChecked_eq (srow : ℕ → UInt8) (hx : ∀ b < cols / 32, CodesOk 32 (xq b).qs) :
    dotI8Q50ShadowChecked A srow xq cols = some (dotI8Q50Shadow A srow xq cols) := by
  refine blocks_checked A fun b hb a => ?_
  obtain ⟨hdot, hdotle⟩ := sum32_mul (le_refl 32) (hx b hb) fun i _ =>
    abs_i8_le_255 (off (off srow (b * 40)) 4 i)
  obtain ⟨hsum, hsumle⟩ := sum32_codes (le_refl 32) (hx b hb)
  obtain ⟨hmul, hsub, -⟩ := sub32_offset (c := 16) (by decide) hdotle hsumle (by decide)
  simp only [sumPair32_eq hdot hsum, hmul, hsub, Option.bind_eq_bind, Option.bind_some,
    Option.pure_def]

/-- One term of a superblock: a signed scale times an offset sum. -/
theorem q6K_term {b : BlkQ8K F} (hb : SuperOk b) (w : ℕ → ℤ) (sc : UInt8) {s k16 : ℕ} (hs : s < 8)
    (hk : k16 < 2) (hw : ∀ i < 16, |w i| ≤ 255) :
    Adds (accumulate (do
      let idot ← sum32 16 fun i => mul32 (w i) (i8 (off b.qs (s * 32) (k16 * 16 + i)))
      let t ← mul32 32 (b.bsums (2 * s + k16))
      let t ← sub32 idot t
      mul32 (i8 sc) t))
      (i8 sc * ((isum 16 fun i => w i * i8 (off b.qs (s * 32) (k16 * 16 + i))) -
        32 * b.bsums (2 * s + k16)))
      74647552 := by
  have hcodes : CodesOk 16 (off (off b.qs (s * 32)) (k16 * 16)) :=
    (hb.codes.off (show s * 32 + 32 ≤ 256 by omega)).off (by omega)
  obtain ⟨hdot, hdotle⟩ := sum32_mul (show 16 ≤ 32 by decide) hcodes hw
  obtain ⟨hmul, hsub, hle⟩ := sub32_offset (c := 32) (by decide) hdotle
    (hb.sums (2 * s + k16) (by omega)) (by decide)
  refine Adds.term ?_ (abs_mul_le (Neon.abs_i8_le sc) hle)
  simp only [off_apply] at hdot hmul hsub hle
  simp only [off_apply, hdot, hmul, hsub, Option.bind_eq_bind, Option.bind_some]
  exact mul32_eq (Neon.abs_i8_le sc) hle (by decide)

theorem dotI8kQ6KChecked_eq (row : ℕ → UInt8) (hx : ∀ b < cols / 256, SuperOk (xk b)) :
    dotI8kQ6KChecked A row xk cols = some (dotI8kQ6K A row xk cols) := by
  refine blocks_checked A fun sb hsb a => ?_
  have hrun := (Adds.loop fun h (hh : h < 2) => Adds.loop fun sp (hsp : sp < 4) =>
    Adds.loop fun k16 (hk : k16 < 2) => q6K_term (hx sb hsb)
      (fun i => (q6Span (off row (sb * 210)) h sp (k16 * 16 + i)).toNat)
      (off (off row (sb * 210)) (192 + h * 8) (2 * sp + k16)) (show h * 4 + sp < 8 by omega) hk
      fun i _ => abs_toNat_le _).start (by decide)
  simp only [Option.bind_eq_bind] at hrun
  simp only [isum_eq] at hrun
  simp only [hrun, isum_eq, Option.bind_eq_bind, Option.bind_some, Option.pure_def]

end

/-! ## The quantizers -/

section
variable {K : Type} [Field K] [LinearOrder K] [IsStrictOrderedRing K] [FloorRing K]

/-- The codes of a block of `n` values, for the step `d` of the block. -/
structure Quantized (n : ℕ) (x : ℕ → K) (d : K) (qs : ℕ → UInt8) : Prop where
  step : d = amax n x / 127
  codes : CodesOk n qs
  error : ∀ i < n, |x i - d * ((i8 (qs i) : ℤ) : K)| ≤ d / 2

/-- The codes that both quantizers compute. -/
theorem quantCodes (n : ℕ) (x : ℕ → K) :
    Quantized n x (amax n x / 127) fun i => toI8 (quantCode (quantInv (amax n x)) (x i)) where
  step := rfl
  codes i _ := by
    obtain ⟨h1, h2⟩ := quantCode_bounds (quantInv (amax n x)) (x i)
    rw [i8_toI8_quantCode]
    exact abs_le.mpr (toInt_bounds h1 h2)
  error i hi := by
    rw [i8_toI8_quantCode, abs_sub_comm]
    calc _ ≤ amax n x / 254 := quantCode_error x hi
      _ = amax n x / 127 / 2 := by ring

theorem quantizeQ8KBlock_superOk (x : ℕ → K) : SuperOk (quantizeQ8KBlock x) where
  codes := (quantCodes 256 x).codes
  sums g hg := by
    rw [quantizeQ8KBlock_sumsOk x g hg]
    exact abs_sum_le fun i hi => (quantCodes 256 x).codes (g * 16 + i) (by omega)

/-- For every activation, the codes of the blocks that `ACT_Q8` writes are at most 127 and within
half a step of the values, and the sums of a superblock are those of its codes and fit `int16_t`.
On these blocks every `int` of the int8 reference dots and of the dots on shadows is inside its
type, whatever the bytes of the weights, and the dots are those in exact integers. -/
theorem int8Dots_inside (A : Arith K) (toHalf : K → UInt16) (row srow : ℕ → UInt8) (x : ℕ → K)
    (cols : ℕ) (o : ActAppendix K) :
    let o' := quantizeActQ8 toHalf x cols o
    (∀ b < cols / 32, ∃ d, (o'.q81 b).d = toHalf d ∧
      Quantized 32 (off x (b * 32)) d (o'.q81 b).qs) ∧
    (∀ b < cols / 256, Quantized 256 (off x (b * 256)) (o'.q8K b).d (o'.q8K b).qs ∧
      (o'.q8K b).SumsOk ∧
      ∀ g < 16, -2 ^ 15 ≤ (o'.q8K b).bsums g ∧ (o'.q8K b).bsums g < 2 ^ 15) ∧
    dotI8Q80Checked A row o'.q81 cols = some (dotI8Q80 A row o'.q81 cols) ∧
    dotI8Q50Checked A row o'.q81 cols = some (dotI8Q50 A row o'.q81 cols) ∧
    dotI8Q4KChecked A row o'.q81 cols = some (dotI8Q4K A row o'.q81 cols) ∧
    dotI8Q6KChecked A row o'.q81 cols = some (dotI8Q6K A row o'.q81 cols) ∧
    dotI8kQ4KChecked A row o'.q8K cols = some (dotI8kQ4K A row o'.q8K cols) ∧
    dotI8kQ6KChecked A row o'.q8K cols = some (dotI8kQ6K A row o'.q8K cols) ∧
    dotI8kQ4KShadowChecked A srow o'.q8K cols = some (dotI8kQ4KShadow A srow o'.q8K cols) ∧
    dotI8Q50ShadowChecked A srow o'.q81 cols = some (dotI8Q50Shadow A srow o'.q81 cols) := by
  intro o'
  have h81 : ∀ b < cols / 32, o'.q81 b = quantizeQ81Block toHalf (off x (b * 32)) :=
    fun b hb => quantizeActQ8_q81 toHalf x hb o
  have h8K : ∀ b < cols / 256, o'.q8K b = quantizeQ8KBlock (off x (b * 256)) :=
    fun b hb => quantizeActQ8_q8K toHalf x hb o
  have hcodes : ∀ b < cols / 32, CodesOk 32 (o'.q81 b).qs := by
    intro b hb
    rw [h81 b hb]
    exact (quantCodes 32 _).codes
  have hsuper : ∀ b < cols / 256, SuperOk (o'.q8K b) := by
    intro b hb
    rw [h8K b hb]
    exact quantizeQ8KBlock_superOk _
  refine ⟨fun b hb => ?_, fun b hb => ⟨?_, execActQ8_sumsOk toHalf x cols o b hb, fun g hg => ?_⟩,
    dotI8Q80Checked_eq A row hcodes, dotI8Q50Checked_eq A row hcodes,
    dotI8Q4KChecked_eq A row hcodes, dotI8Q6KChecked_eq A row hcodes,
    dotI8kQ4KChecked_eq A row hsuper, dotI8kQ6KChecked_eq A row hsuper,
    dotI8kQ4KShadowChecked_eq A srow hsuper, dotI8Q50ShadowChecked_eq A srow hcodes⟩
  · rw [h81 b hb]
    exact ⟨_, rfl, quantCodes 32 _⟩
  · rw [h8K b hb]
    exact quantCodes 256 _
  · obtain ⟨h1, h2⟩ := abs_le.mp ((hsuper b hb).sums g hg)
    constructor <;> omega

end

/-- The sums of the second group of a superblock of the activation `0, 1, …, 255` over the
rationals, and two of the dots on it. -/
theorem int8Dots_inside_ramp :
    let o' := quantizeActQ8 (fun _ => 0x3C00) (fun i => (i : ℚ)) 256
      ⟨fun _ => ⟨0, 0, 0⟩, fun _ => ⟨0, 0, 0⟩⟩
    let A : Arith ℚ := .exact fun w => w.toNat
    (o'.q8K 0).bsums 1 < 2 ^ 15 ∧
      dotI8kQ6KChecked A UInt8.ofNat o'.q8K 256 = some (dotI8kQ6K A UInt8.ofNat o'.q8K 256) ∧
      dotI8kQ4KShadowChecked A UInt8.ofNat o'.q8K 256 =
        some (dotI8kQ4KShadow A UInt8.ofNat o'.q8K 256) := by
  intro o' A
  obtain ⟨-, hsuper, -, -, -, -, -, hq6, hs4, -⟩ := int8Dots_inside A (fun _ => 0x3C00) UInt8.ofNat
    UInt8.ofNat (fun i => (i : ℚ)) 256 ⟨fun _ => ⟨0, 0, 0⟩, fun _ => ⟨0, 0, 0⟩⟩
  exact ⟨((hsuper 0 (by decide)).2.2 1 (by decide)).2, hq6, hs4⟩

end FastLlm
