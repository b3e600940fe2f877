import FastLlm.Lib.Neon
import FastLlm.Runtime.ShadowDot

/-!
# The NEON int8 kernels

The vector kernels of `kernels.h` for Arm cores with the dot product and the matrix extensions, in
terms of the intrinsics.  They unpack sixteen weights at a time, and the variants for several
columns unpack a row once for all columns.

## Main definitions

* `dotI8Q80Neon`, …, `dotI8kQ6KNeon` — the kernels for one column.
* `dotI8kQ4KNeonMc`, `dotI8kQ6KNeonMc`, `dotI8Q80NeonMc` — those for several columns.
* `flInterleaveActQ8k`, `dotI8kQ4KNeonMcSmmla` — pairs of rows against pairs of columns.
* `dotI8kQ4KShadowNeon`, `dotI8Q50ShadowNeon` — the kernels on shadows.
-/

namespace FastLlm

open Neon

section
variable {F : Type} (A : Arith F)

/-- `dot_i8_q8_0_neon`. -/
def dotI8Q80Neon (row : ℕ → UInt8) (xq : ℕ → BlkQ81) (cols : ℕ) : F :=
  fold4 A (iter (cols / 32) (acc0 A) fun b a4 =>
    let W := off row (b * 34)
    let w0 := vld1q (off W 2)
    let w1 := vld1q (off (off W 2) 16)
    let x0 := vld1q (xq b).qs
    let x1 := vld1q (off (xq b).qs 16)
    let s := vdotqS32 (vdotqS32 (vdupqNS32 0) w0 x0) w1 x1
    fmaAt A a4 (b % 4) (A.mul (A.ofHalf (le16 W 0)) (A.ofHalf (xq b).d)) (A.ofInt (vaddvqS32 s)))

/-- `dot_i8_q4_K_neon_v1`. -/
def dotI8Q4KNeonV1 (row : ℕ → UInt8) (xq : ℕ → BlkQ81) (cols : ℕ) : F :=
  let ones := vdupqN8 1
  let m4 := vdupqN8 0x0F
  fold4 A (iter (cols / 256) (acc0 A) fun sb a4 =>
    let W := off row (sb * 144)
    let d := A.ofHalf (le16 W 0)
    let dmin := A.ofHalf (le16 W 2)
    iter 8 a4 fun g a4 =>
      let sc := A.ofU8 (q4kScale (off W 4) g)
      let mn := A.ofU8 (q4kMin (off W 4) g)
      let q := off W (16 + g / 2 * 32)
      let q0 := vld1q q
      let q1 := vld1q (off q 16)
      let w0 := if g % 2 = 1 then vshrqNU8 q0 4 else vandqU8 q0 m4
      let w1 := if g % 2 = 1 then vshrqNU8 q1 4 else vandqU8 q1 m4
      let x0 := vld1q (xq (sb * 8 + g)).qs
      let x1 := vld1q (off (xq (sb * 8 + g)).qs 16)
      let idot := vaddvqS32 (vdotqS32 (vdotqS32 (vdupqNS32 0) w0 x0) w1 x1)
      let xsum := vaddvqS32 (vdotqS32 (vdotqS32 (vdupqNS32 0) ones x0) ones x1)
      let dx := A.ofHalf (xq (sb * 8 + g)).d
      let a4 := fmaAt A a4 (g % 4) (A.mul (A.mul d sc) dx) (A.ofInt idot)
      fmaAt A a4 (g % 4) (A.mul (A.neg (A.mul dmin mn)) dx) (A.ofInt xsum))

/-- The sums of the low and of the high nibbles of 32 bytes against two groups of activations. -/
def q4Chunk (q xa xb : ℕ → UInt8) : ℤ × ℤ :=
  let m4 := vdupqN8 0x0F
  let q0 := vld1q q
  let q1 := vld1q (off q 16)
  let wl0 := vandqU8 q0 m4
  let wl1 := vandqU8 q1 m4
  let wh0 := vshrqNU8 q0 4
  let wh1 := vshrqNU8 q1 4
  (vaddvqS32 (vdotqS32 (vdotqS32 (vdupqNS32 0) wl0 (vld1q xa)) wl1 (vld1q (off xa 16))),
    vaddvqS32 (vdotqS32 (vdotqS32 (vdupqNS32 0) wh0 (vld1q xb)) wh1 (vld1q (off xb 16))))

/-- `dot_i8_q4_K_neon_v2`. -/
def dotI8Q4KNeonV2 (row : ℕ → UInt8) (xq : ℕ → BlkQ81) (xsum : ℕ → ℤ) (xd : ℕ → F)
    (cols : ℕ) : F :=
  fold4 A (iter (cols / 256) (acc0 A) fun sb a4 =>
    let W := off row (sb * 144)
    let d := A.ofHalf (le16 W 0)
    let dmin := A.ofHalf (le16 W 2)
    let sc8 := q4kScale (off W 4)
    let mn8 := q4kMin (off W 4)
    iter 4 a4 fun c a4 =>
      let q := off W (16 + c * 32)
      let b0 := sb * 8 + 2 * c
      let b1 := b0 + 1
      let i := q4Chunk q (xq b0).qs (xq b1).qs
      let glo := 2 * c % 4
      let ghi := (2 * c + 1) % 4
      let a4 := fmaAt A a4 glo (A.mul (A.mul d (A.ofU8 (sc8 (2 * c)))) (xd b0)) (A.ofInt i.1)
      let a4 := fmaAt A a4 glo (A.mul (A.neg (A.mul dmin (A.ofU8 (mn8 (2 * c))))) (xd b0))
        (A.ofInt (xsum b0))
      let a4 := fmaAt A a4 ghi (A.mul (A.mul d (A.ofU8 (sc8 (2 * c + 1)))) (xd b1)) (A.ofInt i.2)
      fmaAt A a4 ghi (A.mul (A.neg (A.mul dmin (A.ofU8 (mn8 (2 * c + 1))))) (xd b1))
        (A.ofInt (xsum b1)))

/-- Sixteen weights of span `s` of a half of a Q6_K superblock, unpacked. -/
def q6Unpack (ql qh : ℕ → UInt8) (s k16 : ℕ) : ℕ → UInt8 :=
  let m4 := vdupqN8 0x0F
  let m3 := vdupqN8 0x03
  let lb := vld1q (off ql (s % 2 * 32 + k16 * 16))
  let hv := vld1q (off qh (k16 * 16))
  let nib := if s < 2 then vandqU8 lb m4 else vshrqNU8 lb 4
  let hb := match s with
    | 0 => vandqU8 hv m3
    | 1 => vandqU8 (vshrqNU8 hv 2) m3
    | 2 => vandqU8 (vshrqNU8 hv 4) m3
    | _ => vshrqNU8 hv 6
  vorrqU8 nib (vshlqNU8 hb 4)

/-- `dot_i8_q6_K_neon`. -/
def dotI8Q6KNeon (row : ℕ → UInt8) (xq : ℕ → BlkQ81) (cols : ℕ) : F :=
  let ones := vdupqN8 1
  fold4 A (iter (cols / 256) (acc0 A) fun sb a4 =>
    let W := off row (sb * 210)
    let d := A.ofHalf (le16 W 208)
    iter 2 a4 fun h a4 =>
      let ql := off W (h * 64)
      let qh := off W (128 + h * 32)
      let sc := off W (192 + h * 8)
      iter 4 a4 fun s a4 =>
        let xg := (xq (sb * 8 + h * 4 + s)).qs
        let dx := A.ofHalf (xq (sb * 8 + h * 4 + s)).d
        iter 2 a4 fun k16 a4 =>
          let wq := q6Unpack ql qh s k16
          let xv := vld1q (off xg (k16 * 16))
          let idot := vaddvqS32 (vdotqS32 (vdupqNS32 0) wq xv)
          let xsum := vaddvqS32 (vdotqS32 (vdupqNS32 0) ones xv)
          let t := i8 (sc (2 * s + k16)) * (idot - 32 * xsum)
          let ti := h * 8 + s * 2 + k16
          fmaAt A a4 (ti % 4) (A.mul d dx) (A.ofInt t))

/-- What a chunk of 64 elements adds to the integer accumulators of the q8_K kernels. -/
def q4ChunkK (W : ℕ → UInt8) (x : BlkQ8K F) (c : ℕ) (i : ℤ × ℤ) (acc : ℤ × ℤ) : ℤ × ℤ :=
  let sc8 := q4kScale (off W 4)
  let mn8 := q4kMin (off W 4)
  (acc.1 + ((sc8 (2 * c)).toNat * i.1 + (sc8 (2 * c + 1)).toNat * i.2),
    acc.2 + ((mn8 (2 * c)).toNat * (x.bsums (4 * c) + x.bsums (4 * c + 1)) +
      (mn8 (2 * c + 1)).toNat * (x.bsums (4 * c + 2) + x.bsums (4 * c + 3))))

/-- The two terms a Q4_K superblock adds to the accumulators of a column. -/
def q4FoldK (W : ℕ → UInt8) (sb : ℕ) (dk : F) (acc : ℤ × ℤ) (a4 : ℕ → F) : ℕ → F :=
  let d := A.ofHalf (le16 W 0)
  let dmin := A.ofHalf (le16 W 2)
  let a4 := fmaAt A a4 (sb % 4) (A.mul d dk) (A.ofInt acc.1)
  fmaAt A a4 (sb % 4) (A.neg (A.mul dmin dk)) (A.ofInt acc.2)

/-- `dot_i8k_q4_K_neon`.  `iacc` and `imins` are the two components of the inner accumulator. -/
def dotI8kQ4KNeon (row : ℕ → UInt8) (xk : ℕ → BlkQ8K F) (cols : ℕ) : F :=
  fold4 A (iter (cols / 256) (acc0 A) fun sb a4 =>
    let W := off row (sb * 144)
    let xs := (xk sb).qs
    let acc := iter 4 (0, 0) fun c acc =>
      let q := off W (16 + c * 32)
      q4ChunkK W (xk sb) c (q4Chunk q (off xs (c * 64)) (off xs (c * 64 + 32))) acc
    q4FoldK A W sb (xk sb).d acc a4)

/-- `dot_i8k_q6_K_neon`. -/
def dotI8kQ6KNeon (row : ℕ → UInt8) (xk : ℕ → BlkQ8K F) (cols : ℕ) : F :=
  fold4 A (iter (cols / 256) (acc0 A) fun sb a4 =>
    let W := off row (sb * 210)
    let d := A.ofHalf (le16 W 208)
    let dk := (xk sb).d
    let iacc := iter 2 0 fun h iacc =>
      let ql := off W (h * 64)
      let qh := off W (128 + h * 32)
      let sc := off W (192 + h * 8)
      iter 4 iacc fun s iacc =>
        let xg := off (xk sb).qs ((h * 4 + s) * 32)
        iter 2 iacc fun k16 iacc =>
          let wq := q6Unpack ql qh s k16
          let xv := vld1q (off xg (k16 * 16))
          let idot := vaddvqS32 (vdotqS32 (vdupqNS32 0) wq xv)
          let bs := (xk sb).bsums (2 * (h * 4 + s) + k16)
          iacc + i8 (sc (2 * s + k16)) * (idot - 32 * bs)
    fmaAt A a4 (sb % 4) (A.mul d dk) (A.ofInt iacc))

/-! ## Several columns -/

/-- `dot_i8k_q4_K_neon_mc`: the column `p` of the result is `out[p]`. -/
def dotI8kQ4KNeonMc (row : ℕ → UInt8) (xk : ℕ → ℕ → BlkQ8K F) (nx cols : ℕ) : ℕ → F :=
  let a4 := iter (cols / 256) (fun _ => acc0 A) fun sb a4 =>
    let W := off row (sb * 144)
    let acc : ℕ → ℤ × ℤ := iter 4 (fun _ => (0, 0)) fun c acc =>
      let q := off W (16 + c * 32)
      iter nx acc fun p acc =>
        let xs := (xk p sb).qs
        Function.update acc p
          (q4ChunkK W (xk p sb) c (q4Chunk q (off xs (c * 64)) (off xs (c * 64 + 32))) (acc p))
    iter nx a4 fun p a4 =>
      Function.update a4 p (q4FoldK A W sb (xk p sb).d (acc p) (a4 p))
  fun p => fold4 A (a4 p)

/-- `dot_i8k_q6_K_neon_mc`. -/
def dotI8kQ6KNeonMc (row : ℕ → UInt8) (xk : ℕ → ℕ → BlkQ8K F) (nx cols : ℕ) : ℕ → F :=
  let a4 := iter (cols / 256) (fun _ => acc0 A) fun sb a4 =>
    let W := off row (sb * 210)
    let d := A.ofHalf (le16 W 208)
    let iacc : ℕ → ℤ := iter 2 (fun _ => 0) fun h iacc =>
      let ql := off W (h * 64)
      let qh := off W (128 + h * 32)
      let sc := off W (192 + h * 8)
      iter 4 iacc fun s iacc =>
        iter 2 iacc fun k16 iacc =>
          let wq := q6Unpack ql qh s k16
          iter nx iacc fun p iacc =>
            let xg := off (xk p sb).qs ((h * 4 + s) * 32)
            let xv := vld1q (off xg (k16 * 16))
            let idot := vaddvqS32 (vdotqS32 (vdupqNS32 0) wq xv)
            let bs := (xk p sb).bsums (2 * (h * 4 + s) + k16)
            Function.update iacc p (iacc p + i8 (sc (2 * s + k16)) * (idot - 32 * bs))
    iter nx a4 fun p a4 =>
      Function.update a4 p
        (fmaAt A (a4 p) (sb % 4) (A.mul d (xk p sb).d) (A.ofInt (iacc p)))
  fun p => fold4 A (a4 p)

/-- `dot_i8_q8_0_neon_mc`. -/
def dotI8Q80NeonMc (row : ℕ → UInt8) (xq : ℕ → ℕ → BlkQ81) (nx cols : ℕ) : ℕ → F :=
  let a4 := iter (cols / 32) (fun _ => acc0 A) fun b a4 =>
    let W := off row (b * 34)
    let w0 := vld1q (off W 2)
    let w1 := vld1q (off (off W 2) 16)
    let dw := A.ofHalf (le16 W 0)
    iter nx a4 fun p a4 =>
      let x0 := vld1q (xq p b).qs
      let x1 := vld1q (off (xq p b).qs 16)
      let s := vdotqS32 (vdotqS32 (vdupqNS32 0) w0 x0) w1 x1
      Function.update a4 p
        (fmaAt A (a4 p) (b % 4) (A.mul dw (A.ofHalf (xq p b).d)) (A.ofInt (vaddvqS32 s)))
  fun p => fold4 A (a4 p)

/-! ## Pairs of rows and pairs of columns -/

/-- `memcpy(d + o, s, 8)`. -/
def memcpy8 (d : ℕ → UInt8) (o : ℕ) (s : ℕ → UInt8) : ℕ → UInt8 :=
  iter 8 d fun i d => Function.update d (o + i) (s i)

/-- `fl_interleave_act_q8k`. -/
def flInterleaveActQ8k (xk : ℕ → ℕ → BlkQ8K F) (nx cols : ℕ) (xi : ℕ → UInt8) : ℕ → UInt8 :=
  iter ((nx + 1) / 2) xi fun cp xi =>
    let dst := cp * cols * 2
    iter (cols / 256) xi fun sb xi =>
      let a := (xk (2 * cp) sb).qs
      let b := (xk (2 * cp + 1) sb).qs
      let d := dst + sb * 512
      iter 32 xi fun g xi =>
        let xi := memcpy8 xi (d + g * 16) (off a (g * 8))
        memcpy8 xi (d + g * 16 + 8) (off b (g * 8))

/-- The operand of two rows: eight bytes of each. -/
def rowPair (c : ℕ) (w0 w0' w1 w1' : ℕ → UInt8) : ℕ → UInt8 :=
  match c with
  | 0 => vcombineS8 (vgetLowS8 w0) (vgetLowS8 w1)
  | 1 => vcombineS8 (vgetHighS8 w0) (vgetHighS8 w1)
  | 2 => vcombineS8 (vgetLowS8 w0') (vgetLowS8 w1')
  | _ => vcombineS8 (vgetHighS8 w0') (vgetHighS8 w1')

/-- Four matrix products of a pair of rows and a pair of columns. -/
def mmla4 (a : ℕ → ℕ → UInt8) (b : ℕ → UInt8) : ℕ → ℤ :=
  vmmlaqS32 (vmmlaqS32 (vmmlaqS32 (vmmlaqS32 (vdupqNS32 0) (a 0) (vld1q b)) (a 1)
    (vld1q (off b 16))) (a 2) (vld1q (off b 32))) (a 3) (vld1q (off b 48))

/-- `dot_i8k_q4_K_neon_mc_smmla`: the results of the two rows for column `p`.  The accumulators of
a column are those of the first and of the second row. -/
def dotI8kQ4KNeonMcSmmla (row0 row1 : ℕ → UInt8) (xk : ℕ → ℕ → BlkQ8K F) (xi : ℕ → UInt8)
    (nx cols : ℕ) : ℕ → F × F :=
  let m4 := vdupqN8 0x0F
  let a4 : ℕ → (ℕ → F) × (ℕ → F) := iter (cols / 256) (fun _ => (acc0 A, acc0 A)) fun sb a4 =>
    let W0 := off row0 (sb * 144)
    let W1 := off row1 (sb * 144)
    let acc : ℕ → (ℤ × ℤ) × (ℤ × ℤ) := iter 4 (fun _ => ((0, 0), (0, 0))) fun c acc =>
      let q0 := off W0 (16 + c * 32)
      let q1 := off W1 (16 + c * 32)
      let p00 := vld1q q0
      let p01 := vld1q (off q0 16)
      let p10 := vld1q q1
      let p11 := vld1q (off q1 16)
      let AL (i : ℕ) := rowPair i (vandqU8 p00 m4) (vandqU8 p01 m4) (vandqU8 p10 m4) (vandqU8 p11 m4)
      let AH (i : ℕ) :=
        rowPair i (vshrqNU8 p00 4) (vshrqNU8 p01 4) (vshrqNU8 p10 4) (vshrqNU8 p11 4)
      iter ((nx + 1) / 2) acc fun cp acc =>
        let b := off xi (cp * cols * 2 + sb * 512 + c * 128)
        let lo := mmla4 AL b
        let hi := mmla4 AH (off b 64)
        let pa := 2 * cp
        let pb := 2 * cp + 1
        let acc := Function.update acc pa
          (q4ChunkK W0 (xk pa sb) c (lo 0, hi 0) (acc pa).1,
            q4ChunkK W1 (xk pa sb) c (lo 2, hi 2) (acc pa).2)
        Function.update acc pb
          (q4ChunkK W0 (xk pb sb) c (lo 1, hi 1) (acc pb).1,
            q4ChunkK W1 (xk pb sb) c (lo 3, hi 3) (acc pb).2)
    iter nx a4 fun p a4 =>
      let dk := (xk p sb).d
      Function.update a4 p
        (q4FoldK A W0 sb dk (acc p).1 (a4 p).1, q4FoldK A W1 sb dk (acc p).2 (a4 p).2)
  fun p => (fold4 A (a4 p).1, fold4 A (a4 p).2)

/-! ## Shadows -/

/-- `dot_i8k_q4_K_shadow`, vectorized. -/
def dotI8kQ4KShadowNeon (srow : ℕ → UInt8) (xk : ℕ → BlkQ8K F) (cols : ℕ) : F :=
  fold4 A (iter (cols / 256) (acc0 A) fun sb a4 =>
    let o := off srow (sb * 280)
    let d := A.ofBits (le32 o 0)
    let dmin := A.ofBits (le32 o 4)
    let sc8 := off o 8
    let mn8 := off o 16
    let qs := off o 24
    let xs := (xk sb).qs
    let bsums := (xk sb).bsums
    let acc : ℤ × ℤ := iter 4 (0, 0) fun c acc =>
      let dot (k : ℕ) := vaddvqS32 (vdotqS32 (vdotqS32 (vdupqNS32 0) (vld1q (off qs k))
        (vld1q (off xs k))) (vld1q (off qs (k + 16))) (vld1q (off xs (k + 16))))
      let ilo := dot (c * 64)
      let ihi := dot (c * 64 + 32)
      (acc.1 + ((sc8 (2 * c)).toNat * ilo + (sc8 (2 * c + 1)).toNat * ihi),
        acc.2 + ((mn8 (2 * c)).toNat * (bsums (4 * c) + bsums (4 * c + 1)) +
          (mn8 (2 * c + 1)).toNat * (bsums (4 * c + 2) + bsums (4 * c + 3))))
    let dk := (xk sb).d
    let a4 := fmaAt A a4 (sb % 4) (A.mul d dk) (A.ofInt acc.1)
    fmaAt A a4 (sb % 4) (A.neg (A.mul dmin dk)) (A.ofInt acc.2))

/-- `dot_i8_q5_0_shadow`, vectorized. -/
def dotI8Q50ShadowNeon (srow : ℕ → UInt8) (xq : ℕ → BlkQ81) (cols : ℕ) : F :=
  let ones := vdupqN8 1
  fold4 A (iter (cols / 32) (acc0 A) fun b a4 =>
    let o := off srow (b * 40)
    let d := A.ofBits (le32 o 0)
    let w := off o 4
    let w0 := vld1q w
    let w1 := vld1q (off w 16)
    let x0 := vld1q (xq b).qs
    let x1 := vld1q (off (xq b).qs 16)
    let idot := vaddvqS32 (vdotqS32 (vdotqS32 (vdupqNS32 0) w0 x0) w1 x1)
    let xsum := vaddvqS32 (vdotqS32 (vdotqS32 (vdupqNS32 0) ones x0) ones x1)
    fmaAt A a4 (b % 4) (A.mul d (A.ofHalf (xq b).d)) (A.ofInt (idot - 16 * xsum)))

end
end FastLlm
