import FastLlm.Lib.Cuda
import FastLlm.Runtime.CpuExec

/-!
# Tiles on the GPU

The dot product kernels of `kernels_gpu.h`, and the column split of `gpu_exec.cu`, executed by one
block.  A warp takes every `nw`-th row; its lanes share the row, and the first of them adds what
all of them hold.  The kernels for floats deal out elements, those for quantized activations packed
words of four.  `q4_K` superblocks are taken one at a time, as the shipped build does.

The counters of the rows have 32 bits and may wrap around, so that their loops need fuel.  Which
warp adds to its outputs first is up to the block.

## Main definitions

* `GpuBlock` — the block, and the order in which its warps add to the outputs.
* `warpPerRow` — the loop over the rows.
* `gdotF32`, …, `gdotIq3Xxs` — the kernels for floats; `streamDotColsplit` — the column split.
* `gdotI8Q80`, …, `gdotI8Iq3Xxs` — the kernels for quantized activations.
-/

namespace FastLlm

open Cuda

/-- A block that executes a tile: `nw` warps of 32 threads. -/
structure GpuBlock where
  nw : ℕ
  nw_pos : 0 < nw
  /-- The rows and columns of all warps in the order in which their sums are added. -/
  sched : List (List (ℕ × ℕ)) → List (ℕ × ℕ)
  sched_perm : ∀ l, (sched l).Perm l.flatten
  /-- What the shared tables hold before. -/
  g2 : ℕ → UInt64
  g3 : ℕ → UInt32
  sgn : ℕ → UInt8

/-- `blockDim.x`. -/
def GpuBlock.blockDim (B : GpuBlock) : ℕ := 32 * B.nw

/-- `for (i = threadIdx.x; i < n; i += blockDim.x) g[i] = table(i)`, followed by a barrier. -/
def GpuBlock.stage (B : GpuBlock) {α : Type} (n : ℕ) (table g : ℕ → α) : ℕ → α :=
  iter B.blockDim g fun tid g =>
    iterStep tid n B.blockDim g fun i g => Function.update g i (table i)

/-- The low four bits of `v`, each as bit 4 of a byte. -/
def spread4Hi (v : UInt32) : UInt32 := (((v &&& 0xF) * 0x00204081) &&& 0x01010101) <<< 4

/-- The four sign bits of a quad, each as a byte. -/
def signMask4 (signs : UInt32) (shift : ℕ) : UInt32 :=
  let b := (signs >>> UInt32.ofNat shift) &&& 0xF
  ((b * 0x00204081) &&& 0x01010101) * 0xFF

section
variable {F : Type} (A : Arith F)

/-- The loop of a block over the rows of a tile of `columns` columns: `acc r p` are the sums of the
lanes. -/
def warpPerRow (fuel : ℕ) (t : TaskParams) (B : GpuBlock) (columns : List ℕ)
    (acc : ℕ → ℕ → ℕ → F) (y : Loc → F) : Option (Loc → F) := do
  let visited ← (List.range B.nw).mapM fun warp => do
    let rows ← loop32 t.rows B.nw fuel warp
    pure (rows.flatMap fun r => columns.map fun p => (r, p))
  pure ((B.sched visited).foldl
    (fun y c => addAt A y (t.out c.2 c.1) (warpReduceAdd A.add (acc c.1 c.2) 0)) y)

/-! ## Float activations -/

/-- What a lane of `gdot_f32` holds. -/
def gdotF32Lane (row : ℕ → UInt8) (x : ℕ → F) (cols lane : ℕ) : F :=
  iterStep lane (cols / 4) 32 A.zero fun c acc =>
    iter 4 acc fun j acc => A.fma (A.ofBits (le32 row (4 * (4 * c + j)))) (x (4 * c + j)) acc

def gdotQ80Lane (row : ℕ → UInt8) (x : ℕ → F) (cols lane : ℕ) : F :=
  iter (cols / 32) A.zero fun b acc =>
    let bp := off row (b * 34)
    let d := shfl (fun l => if l = 0 then A.ofHalf (le16 bp 0) else A.zero) 0 lane
    A.fma (A.mul d (A.ofInt (i8 (bp (2 + lane))))) (x (b * 32 + lane)) acc

def gdotQ50Lane (row : ℕ → UInt8) (x : ℕ → F) (cols lane : ℕ) : F :=
  iter (cols / 32) A.zero fun b acc =>
    let bp := off row (b * 22)
    let d := shfl (fun l => if l = 0 then A.ofHalf (le16 bp 0) else A.zero) 0 lane
    let qh := shfl (fun l => if l = 0 then u16Pair bp 2 else 0) 0 lane
    let j := lane % 16
    let qb := bp (6 + j)
    if lane < 16 then
      let v := ((qb &&& (0x0F : UInt8)).toUInt32 ||| (((qh >>> UInt32.ofNat j) <<< 4) &&& 0x10))
      A.fma (A.mul d (A.ofInt ((v.toNat : ℤ) - 16))) (x (b * 32 + j)) acc
    else
      let v := ((qb >>> 4).toUInt32 ||| ((qh >>> UInt32.ofNat (j + 12)) &&& 0x10))
      A.fma (A.mul d (A.ofInt ((v.toNat : ℤ) - 16))) (x (b * 32 + 16 + j)) acc

def gdotQ4KLane (row : ℕ → UInt8) (x : ℕ → F) (cols lane : ℕ) : F :=
  iter (cols / 256) A.zero fun sb acc =>
    let bp := off row (sb * 144)
    let d := A.ofHalf (le16 bp 0)
    let dmin := A.ofHalf (le16 bp 2)
    let scales := off bp 4
    let qs := off bp 16
    let xb := off x (sb * 256)
    iter 4 acc fun c acc =>
      let d1 := A.mul d (A.ofU8 (q4kScale scales (2 * c)))
      let m1 := A.mul dmin (A.ofU8 (q4kMin scales (2 * c)))
      let d2 := A.mul d (A.ofU8 (q4kScale scales (2 * c + 1)))
      let m2 := A.mul dmin (A.ofU8 (q4kMin scales (2 * c + 1)))
      let q := qs (c * 32 + lane)
      let acc := A.fma (A.sub (A.mul d1 (A.ofU8 (q &&& (0x0F : UInt8)))) m1) (xb (c * 64 + lane)) acc
      A.fma (A.sub (A.mul d2 (A.ofU8 (q >>> 4))) m2) (xb (c * 64 + 32 + lane)) acc

def gdotQ6KLane (row : ℕ → UInt8) (x : ℕ → F) (cols lane : ℕ) : F :=
  iter (cols / 256) A.zero fun sb acc =>
    let bp := off row (sb * 210)
    let d := A.ofHalf (le16 bp 208)
    let xb := off x (sb * 256)
    iter 2 acc fun h acc =>
      let ql := off bp (h * 64)
      let qh := off bp (128 + h * 32)
      let sc := off (off bp 192) (h * 8)
      let is := lane / 16
      let l0 := ql lane
      let l32 := ql (lane + 32)
      let hh := qh lane
      let xh := off xb (h * 128)
      let term (i : ℕ) (q : UInt8) (e : ℕ) (acc : F) : F :=
        A.fma (A.mul (A.mul d (A.ofInt (i8 (sc (is + i))))) (A.ofInt ((q.toNat : ℤ) - 32))) (xh e) acc
      let acc := term 0 ((l0 &&& (0x0F : UInt8)) ||| (((hh >>> 0) &&& (3 : UInt8)) <<< 4)) lane acc
      let acc := term 2 ((l32 &&& (0x0F : UInt8)) ||| (((hh >>> 2) &&& (3 : UInt8)) <<< 4))
        (lane + 32) acc
      let acc := term 4 ((l0 >>> 4) ||| (((hh >>> 4) &&& (3 : UInt8)) <<< 4)) (lane + 64) acc
      term 6 ((l32 >>> 4) ||| (((hh >>> 6) &&& (3 : UInt8)) <<< 4)) (lane + 96) acc

/-- `(s >> j) & 1u ? -v : v`. -/
def negateIf (s : UInt8) (j : ℕ) (v : F) : F :=
  if (s >>> UInt8.ofNat j) &&& 1 ≠ 0 then A.neg v else v

/-- `g2` and `sgn` are the staged tables. -/
def gdotIq2XxsLane (g2 : ℕ → UInt64) (sgn : ℕ → UInt8) (row : ℕ → UInt8) (x : ℕ → F)
    (cols lane : ℕ) : F :=
  let l := lane / 8
  let jj := lane % 8
  iter (cols / 256) A.zero fun sb acc =>
    let bp := off row (sb * 66)
    let d := A.ofHalf (le16 bp 0)
    iter 8 acc fun ib32 acc =>
      let w0 := u16Pair bp (2 + 8 * ib32)
      let w1 := u16Pair bp (2 + 8 * ib32 + 4)
      let g := g2 ((w0 >>> UInt32.ofNat (8 * l)) &&& 0xFF).toNat
      let s := sgn ((w1 >>> UInt32.ofNat (7 * l)) &&& 127).toNat
      let v := A.ofU8 (gridByte2 g jj)
      let db := iqScale A d w1 A.quarter
      A.fma (A.mul db (negateIf A s jj v)) (x (sb * 256 + ib32 * 32 + lane)) acc

def gdotIq3XxsLane (g3 : ℕ → UInt32) (sgn : ℕ → UInt8) (row : ℕ → UInt8) (x : ℕ → F)
    (cols lane : ℕ) : F :=
  let quad := lane / 4
  let jj := lane % 4
  iter (cols / 256) A.zero fun sb acc =>
    let bp := off row (sb * 98)
    let d := A.ofHalf (le16 bp 0)
    iter 8 acc fun ib32 acc =>
      let w1 := u16Pair bp (2 + 64 + 4 * ib32)
      let g := g3 (bp (2 + 8 * ib32 + quad)).toNat
      let s := sgn ((w1 >>> UInt32.ofNat (7 * (quad / 2))) &&& 127).toNat
      let bit := 4 * (quad % 2) + jj
      let v := A.ofU8 (gridByte3 g jj)
      let db := iqScale A d w1 A.half
      A.fma (A.mul db (negateIf A s bit v)) (x (sb * 256 + ib32 * 32 + lane)) acc

section
variable (m : TileMem F) (fuel : ℕ) (t : TaskParams) (B : GpuBlock)

/-- `gdot_f32`. -/
def gdotF32 : (Loc → F) → Option (Loc → F) :=
  warpPerRow A fuel t B [0] fun r _ =>
    gdotF32Lane A (m.row (t.w.add (r * (4 * t.cols)))) (m.col t.x) t.cols

/-- `gdot_q8_0`. -/
def gdotQ80 : (Loc → F) → Option (Loc → F) :=
  warpPerRow A fuel t B [0] fun r _ =>
    gdotQ80Lane A (m.row (t.w.add (r * (t.cols / 32 * 34)))) (m.col t.x) t.cols

/-- `gdot_q5_0`. -/
def gdotQ50 : (Loc → F) → Option (Loc → F) :=
  warpPerRow A fuel t B [0] fun r _ =>
    gdotQ50Lane A (m.row (t.w.add (r * (t.cols / 32 * 22)))) (m.col t.x) t.cols

/-- `gdot_q4_K`. -/
def gdotQ4K : (Loc → F) → Option (Loc → F) :=
  warpPerRow A fuel t B [0] fun r _ =>
    gdotQ4KLane A (m.row (t.w.add (r * (t.cols / 256 * 144)))) (m.col t.x) t.cols

/-- `gdot_q6_K`. -/
def gdotQ6K : (Loc → F) → Option (Loc → F) :=
  warpPerRow A fuel t B [0] fun r _ =>
    gdotQ6KLane A (m.row (t.w.add (r * (t.cols / 256 * 210)))) (m.col t.x) t.cols

/-- `gdot_iq2_xxs`. -/
def gdotIq2Xxs : (Loc → F) → Option (Loc → F) :=
  let g2 := B.stage 256 kIq2xxsGrid B.g2
  let sgn := B.stage 128 kIqSigns B.sgn
  warpPerRow A fuel t B [0] fun r _ =>
    gdotIq2XxsLane A g2 sgn (m.row (t.w.add (r * (t.cols / 256 * 66)))) (m.col t.x) t.cols

/-- `gdot_iq3_xxs`. -/
def gdotIq3Xxs : (Loc → F) → Option (Loc → F) :=
  let g3 := B.stage 256 kIq3xxsGrid B.g3
  let sgn := B.stage 128 kIqSigns B.sgn
  warpPerRow A fuel t B [0] fun r _ =>
    gdotIq3XxsLane A g3 sgn (m.row (t.w.add (r * (t.cols / 256 * 98)))) (m.col t.x) t.cols

/-! ## The column split -/

/-- The threads of a row: the largest power of two that leaves a group to every row. -/
def colsplitTpr : ℕ := 2 ^ Nat.log2 (B.blockDim / t.rows)

/-- `stream_dot_colsplit`.  `red` is what the shared array holds before. -/
def streamDotColsplit (red : ℕ → F) (y : Loc → F) : Option (Loc → F) := do
  let tpr := colsplitTpr t B
  let visited ← (List.range B.blockDim).mapM fun tid => loop32 t.cols tpr fuel (tid % tpr)
  let acc (tid : ℕ) : F :=
    if tid / tpr < t.rows then
      let row := m.row (t.w.add (tid / tpr * (4 * t.cols)))
      (visited.getD tid []).foldl
        (fun acc c => A.fma (A.ofBits (le32 row (4 * c))) (m.col t.x c) acc) A.zero
    else A.zero
  let red := fun tid => if tid < B.blockDim then acc tid else red tid
  -- every thread reads before any of them writes
  let red := iterHalf (Nat.log2 tpr) red fun s red tid =>
    if tid < B.blockDim ∧ tid % tpr < s ∧ tid / tpr < t.rows then
      A.add (red (tid / tpr * tpr + tid % tpr)) (red (tid / tpr * tpr + tid % tpr + s))
    else red tid
  pure (iter B.blockDim y fun tid y =>
    if tid % tpr = 0 ∧ tid / tpr < t.rows then
      addAt A y (t.y.add (tid / tpr)) (red (tid / tpr * tpr))
    else y)

end

/-! ## Quantized activations -/

/-- `((const int *)qs)[k]`. -/
def quad (qs : ℕ → UInt8) (k : ℕ) : UInt32 := u8Quad qs (4 * k)

/-- `0x01010101`. -/
def onesWord : UInt32 := 0x01010101

def gdotI8Q80Lane (row : ℕ → UInt8) (xq : ℕ → BlkQ81) (cols lane : ℕ) : F :=
  let nb := cols / 32
  let bg := lane / 8
  let k := lane % 8
  fold4 A (iter ((nb + 3) / 4) (acc0 A) fun it a =>
    let b := 4 * it + bg
    if b < nb then
      let bp := off row (b * 34)
      let wq := u16Pair bp (2 + 4 * k)
      let xv := quad (xq b).qs k
      fmaAt A a (it % 4) (A.mul (A.ofHalf (le16 bp 0)) (A.ofHalf (xq b).d))
        (A.ofInt (dp4a wq xv 0))
    else a)

def gdotI8Q50Lane (row : ℕ → UInt8) (xq : ℕ → BlkQ81) (cols lane : ℕ) : F :=
  let nb := cols / 32
  let bg := lane / 4
  let k := lane % 4
  let a := iter ((nb + 7) / 8) (acc0 A) fun it a =>
    let b := 8 * it + bg
    if b < nb then
      let bp := off row (b * 22)
      let qsv := u16Pair bp (6 + 4 * k)
      let qh := u16Pair bp 2
      let wlo := (qsv &&& 0x0F0F0F0F) ||| spread4Hi (qh >>> UInt32.ofNat (4 * k))
      let whi := (sar qsv 4 &&& 0x0F0F0F0F) ||| spread4Hi (qh >>> UInt32.ofNat (16 + 4 * k))
      let xlo := quad (xq b).qs k
      let xhi := quad (xq b).qs (4 + k)
      let idot := dp4a wlo xlo (dp4a whi xhi 0)
      let xsum := dp4a onesWord xlo (dp4a onesWord xhi 0)
      fmaAt A a (it % 2) (A.mul (A.ofHalf (le16 bp 0)) (A.ofHalf (xq b).d))
        (A.ofInt (idot - 16 * xsum))
    else a
  A.add (a 0) (a 1)

/-- `gdot_i8_q4_K_v1`. -/
def gdotI8Q4KV1Lane (row : ℕ → UInt8) (xq : ℕ → BlkQ81) (cols lane : ℕ) : F :=
  let c := lane / 8
  let k := lane % 8
  fold4 A (iter (cols / 256) (acc0 A) fun sb a =>
    let bp := off row (sb * 144)
    let d := A.ofHalf (le16 bp 0)
    let dmin := A.ofHalf (le16 bp 2)
    let sc1 := A.ofU8 (q4kScale (off bp 4) (2 * c))
    let mn1 := A.ofU8 (q4kMin (off bp 4) (2 * c))
    let sc2 := A.ofU8 (q4kScale (off bp 4) (2 * c + 1))
    let mn2 := A.ofU8 (q4kMin (off bp 4) (2 * c + 1))
    let wq := quad (off bp 16) (c * 8 + k)
    let lo := wq &&& 0x0F0F0F0F
    let hi := sar wq 4 &&& 0x0F0F0F0F
    let xlob := xq (sb * 8 + 2 * c)
    let xhib := xq (sb * 8 + 2 * c + 1)
    let xlo := quad xlob.qs k
    let xhi := quad xhib.qs k
    let dxl := A.ofHalf xlob.d
    let dxh := A.ofHalf xhib.d
    let a := fmaAt A a 0 (A.mul (A.mul d sc1) dxl) (A.ofInt (dp4a lo xlo 0))
    let a := fmaAt A a 1 (A.mul (A.neg (A.mul dmin mn1)) dxl) (A.ofInt (dp4a onesWord xlo 0))
    let a := fmaAt A a 2 (A.mul (A.mul d sc2) dxh) (A.ofInt (dp4a hi xhi 0))
    fmaAt A a 3 (A.mul (A.neg (A.mul dmin mn2)) dxh) (A.ofInt (dp4a onesWord xhi 0)))

/-- The six-bit numbers of quad `k` of span `s` of half `h`. -/
def q6Quad (bp : ℕ → UInt8) (h s k : ℕ) : UInt32 :=
  let qlv := u16Pair bp (h * 64 + s % 2 * 32 + 4 * k)
  let qhv := u16Pair bp (128 + h * 32 + 4 * k)
  let nib := if s < 2 then qlv &&& 0x0F0F0F0F else sar qlv 4 &&& 0x0F0F0F0F
  let hb := sar qhv (2 * s) &&& 0x03030303
  nib ||| (hb <<< 4)

def gdotI8Q6KLane (row : ℕ → UInt8) (xq : ℕ → BlkQ81) (cols lane : ℕ) : F :=
  let s := lane / 8
  let k := lane % 8
  fold4 A (iter (cols / 256) (acc0 A) fun sb a =>
    let bp := off row (sb * 210)
    let dw := A.ofHalf (le16 bp 208)
    iter 2 a fun h a =>
      let wq := q6Quad bp h s k
      let xb := xq (sb * 8 + h * 4 + s)
      let xv := quad xb.qs k
      let idot := dp4a wq xv 0
      let xsum := dp4a onesWord xv 0
      let sc := i8 (bp (192 + (h * 8 + 2 * s + k / 4)))
      fmaAt A a ((2 * sb + h) % 4) (A.mul dw (A.ofHalf xb.d)) (A.ofInt (sc * (idot - 32 * xsum))))

/-- The two integers of a lane in superblock `sb`: the scaled dot of its two quads, and the mins of
the chunk, which the first of its lanes adds. -/
def i8kQ4KInts (bp : ℕ → UInt8) (b : BlkQ8K F) (lane : ℕ) : ℤ × ℤ :=
  let c := lane / 8
  let k := lane % 8
  let sc1 := q4kScale (off bp 4) (2 * c)
  let mn1 := q4kMin (off bp 4) (2 * c)
  let sc2 := q4kScale (off bp 4) (2 * c + 1)
  let mn2 := q4kMin (off bp 4) (2 * c + 1)
  let wq := quad (off bp 16) (c * 8 + k)
  let lo := wq &&& 0x0F0F0F0F
  let hi := sar wq 4 &&& 0x0F0F0F0F
  let xlo := quad (off b.qs (2 * c * 32)) k
  let xhi := quad (off b.qs ((2 * c + 1) * 32)) k
  (sc1.toNat * dp4a lo xlo 0 + sc2.toNat * dp4a hi xhi 0,
    mn1.toNat * (b.bsums (4 * c) + b.bsums (4 * c + 1)) +
      mn2.toNat * (b.bsums (4 * c + 2) + b.bsums (4 * c + 3)))

/-- What a lane adds to its two accumulators in superblock `sb`. -/
def i8kQ4KStep (bp : ℕ → UInt8) (b : BlkQ8K F) (lane : ℕ) (a : F × F) : F × F :=
  let d := A.ofHalf (le16 bp 0)
  let dmin := A.ofHalf (le16 bp 2)
  let z := i8kQ4KInts bp b lane
  (A.fma (A.mul d b.d) (A.ofInt z.1) a.1,
    if lane % 8 = 0 then A.fma (A.neg (A.mul dmin b.d)) (A.ofInt z.2) a.2 else a.2)

def gdotI8kQ4KLane (row : ℕ → UInt8) (xk : ℕ → BlkQ8K F) (cols lane : ℕ) : F :=
  let a := iter (cols / 256) (A.zero, A.zero) fun sb a =>
    i8kQ4KStep A (off row (sb * 144)) (xk sb) lane a
  A.add a.1 a.2

def gdotI8kQ6KLane (row : ℕ → UInt8) (xk : ℕ → BlkQ8K F) (cols lane : ℕ) : F :=
  let s := lane / 8
  let k := lane % 8
  iter (cols / 256) A.zero fun sb acc =>
    let bp := off row (sb * 210)
    let dw := A.ofHalf (le16 bp 208)
    let isb := iter 2 (0 : ℤ) fun h isb =>
      let sc := i8 (bp (192 + (h * 8 + 2 * s + k / 4)))
      let xv := quad (off (xk sb).qs ((h * 4 + s) * 32)) k
      let tpart := sc * dp4a (q6Quad bp h s k) xv 0
      let tpart := if k % 4 = 0 then
          tpart - sc * 32 * (xk sb).bsums (2 * (h * 4 + s) + k / 4)
        else tpart
      isb + tpart
    A.fma (A.mul dw (xk sb).d) (A.ofInt isb) acc

/-- The accumulators of a lane of `gdot_i8k_q4_K_mc` for the `pc` columns from `p0` on. -/
def gdotI8kQ4KMcLane (row : ℕ → UInt8) (xk : ℕ → ℕ → BlkQ8K F) (cols p0 pc lane : ℕ) : ℕ → F × F :=
  iter (cols / 256) (fun _ => (A.zero, A.zero)) fun sb a =>
    iter pc a fun pp a =>
      Function.update a pp (i8kQ4KStep A (off row (sb * 144)) (xk (p0 + pp) sb) lane (a pp))

/-- Signs applied to the bytes of a word. -/
def negQuad (vq neg : UInt32) : UInt32 := (vq ^^^ neg) + (neg &&& onesWord)

/-- `g2` and `sgn` are the staged tables. -/
def gdotI8Iq2XxsLane (g2 : ℕ → UInt64) (sgn : ℕ → UInt8) (row : ℕ → UInt8) (xq : ℕ → BlkQ81)
    (cols lane : ℕ) : F :=
  let ib := lane / 8
  let k := lane % 8
  let a := iter (cols / 256) (acc0 A) fun sb a =>
    let bp := off row (sb * 66)
    let d := A.ofHalf (le16 bp 0)
    iter 2 a fun half a =>
      let ib32 := half * 4 + ib
      let w0 := u16Pair bp (2 + 8 * ib32)
      let w1 := u16Pair bp (2 + 8 * ib32 + 4)
      let l := k / 2
      let sel := k % 2
      let g := g2 ((w0 >>> UInt32.ofNat (8 * l)) &&& 0xFF).toNat
      let vq := (if sel ≠ 0 then g >>> 32 else g).toUInt32
      let sg := (sgn ((w1 >>> UInt32.ofNat (7 * l)) &&& 127).toNat).toUInt32
      let wq := negQuad vq (signMask4 sg (4 * sel))
      let b := sb * 8 + ib32
      let db := iqScale A d w1 A.quarter
      fmaAt A a half (A.mul db (A.ofHalf (xq b).d)) (A.ofInt (dp4a wq (quad (xq b).qs k) 0))
  A.add (a 0) (a 1)

def gdotI8Iq3XxsLane (g3 : ℕ → UInt32) (sgn : ℕ → UInt8) (row : ℕ → UInt8) (xq : ℕ → BlkQ81)
    (cols lane : ℕ) : F :=
  let ib := lane / 8
  let k := lane % 8
  let a := iter (cols / 256) (acc0 A) fun sb a =>
    let bp := off row (sb * 98)
    let d := A.ofHalf (le16 bp 0)
    let qs := off bp 2
    let ss := off bp (2 + 64)
    iter 2 a fun half a =>
      let ib32 := half * 4 + ib
      let w1 := u16Pair ss (4 * ib32)
      let vq := g3 (qs (8 * ib32 + k)).toNat
      let sg := (sgn ((w1 >>> UInt32.ofNat (7 * (k / 2))) &&& 127).toNat).toUInt32
      let wq := negQuad vq (signMask4 sg (4 * (k % 2)))
      let b := sb * 8 + ib32
      let db := iqScale A d w1 A.half
      fmaAt A a half (A.mul db (A.ofHalf (xq b).d)) (A.ofInt (dp4a wq (quad (xq b).qs k) 0))
  A.add (a 0) (a 1)

section
variable (m : TileMem F) (fuel : ℕ) (t : TaskParams) (B : GpuBlock)

/-- `gdot_i8_q8_0`. -/
def gdotI8Q80 : (Loc → F) → Option (Loc → F) :=
  warpPerRow A fuel t B [0] fun r _ =>
    gdotI8Q80Lane A (m.row (t.w.add (r * (t.cols / 32 * 34)))) (m.xq t.x t.cols) t.cols

/-- `gdot_i8_q5_0`. -/
def gdotI8Q50 : (Loc → F) → Option (Loc → F) :=
  warpPerRow A fuel t B [0] fun r _ =>
    gdotI8Q50Lane A (m.row (t.w.add (r * (t.cols / 32 * 22)))) (m.xq t.x t.cols) t.cols

/-- `gdot_i8_q4_K_v1`. -/
def gdotI8Q4KV1 : (Loc → F) → Option (Loc → F) :=
  warpPerRow A fuel t B [0] fun r _ =>
    gdotI8Q4KV1Lane A (m.row (t.w.add (r * (t.cols / 256 * 144)))) (m.xq t.x t.cols) t.cols

/-- `gdot_i8_q6_K`. -/
def gdotI8Q6K : (Loc → F) → Option (Loc → F) :=
  warpPerRow A fuel t B [0] fun r _ =>
    gdotI8Q6KLane A (m.row (t.w.add (r * (t.cols / 256 * 210)))) (m.xq t.x t.cols) t.cols

/-- `gdot_i8k_q4_K`. -/
def gdotI8kQ4K : (Loc → F) → Option (Loc → F) :=
  warpPerRow A fuel t B [0] fun r _ =>
    gdotI8kQ4KLane A (m.row (t.w.add (r * (t.cols / 256 * 144)))) (m.xqk t.x t.cols) t.cols

/-- `gdot_i8k_q6_K`. -/
def gdotI8kQ6K : (Loc → F) → Option (Loc → F) :=
  warpPerRow A fuel t B [0] fun r _ =>
    gdotI8kQ6KLane A (m.row (t.w.add (r * (t.cols / 256 * 210)))) (m.xqk t.x t.cols) t.cols

/-- The columns of a tile in chunks of four. -/
def mcColumns (nx : ℕ) : List ℕ :=
  (strided 0 nx 4).flatMap fun p0 => (List.range (min 4 (nx - p0))).map fun pp => p0 + pp

/-- `gdot_i8k_q4_K_mc`. -/
def gdotI8kQ4KMc : (Loc → F) → Option (Loc → F) :=
  warpPerRow A fuel t B (mcColumns t.nx) fun r p lane =>
    let p0 := p / 4 * 4
    let a := gdotI8kQ4KMcLane A (m.row (t.w.add (r * (t.cols / 256 * 144))))
      (fun p => m.xqk (t.inCol p) t.cols) t.cols p0 (min 4 (t.nx - p0)) lane (p % 4)
    A.add a.1 a.2

/-- `gdot_i8_iq2_xxs`. -/
def gdotI8Iq2Xxs : (Loc → F) → Option (Loc → F) :=
  let g2 := B.stage 256 kIq2xxsGrid B.g2
  let sgn := B.stage 128 kIqSigns B.sgn
  warpPerRow A fuel t B [0] fun r _ =>
    gdotI8Iq2XxsLane A g2 sgn (m.row (t.w.add (r * (t.cols / 256 * 66)))) (m.xq t.x t.cols) t.cols

/-- `gdot_i8_iq3_xxs`. -/
def gdotI8Iq3Xxs : (Loc → F) → Option (Loc → F) :=
  let g3 := B.stage 256 kIq3xxsGrid B.g3
  let sgn := B.stage 128 kIqSigns B.sgn
  warpPerRow A fuel t B [0] fun r _ =>
    gdotI8Iq3XxsLane A g3 sgn (m.row (t.w.add (r * (t.cols / 256 * 98)))) (m.xq t.x t.cols) t.cols

end

end
end FastLlm
