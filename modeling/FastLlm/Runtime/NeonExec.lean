import FastLlm.Runtime.CpuExec
import FastLlm.Runtime.NeonDot

/-!
# Tiles on Arm cores

The two branches of `exec_task_cpu` that read a quantized activation, as they are compiled for
cores with the dot product extension and, if `matmulInt8` is set, with the matrix extension.

## Main definitions

* `dotRowI8kNeon`, `dotRowI8Neon` — the kernel of a format.
* `dot2I8kQ4KShadowSmmla` — two rows of an interleaved shadow.
* `execI8kNeon`, `execI8Neon` — the branches.
-/

namespace FastLlm

open Neon

def kMaxActBlocks : ℕ := 128
def kSmmlaScratchBytes : ℕ := 32 * 1024

/-- What the branches depend on besides the task. -/
structure NeonConfig extends CpuConfig where
  /-- `__ARM_FEATURE_MATMUL_INT8`. -/
  matmulInt8 : Bool
  /-- `fl_smmla_on()`. -/
  smmlaOn : Bool

section
variable {F : Type} (A : Arith F)

/-- `dot_row_i8k`. -/
def dotRowI8kNeon (f : Fmt) (row : ℕ → UInt8) (xk : ℕ → BlkQ8K F) (cols : ℕ) : F :=
  match f with
  | .Q4_K => dotI8kQ4KNeon A row xk cols
  | .Q6_K => dotI8kQ6KNeon A row xk cols
  | _ => dotI8kAny A f row xk cols

/-- `dot_row_i8`. -/
def dotRowI8Neon (f : Fmt) (row : ℕ → UInt8) (xq : ℕ → BlkQ81) (cols : ℕ) : F :=
  match f with
  | .Q8_0 => dotI8Q80Neon A row xq cols
  | .Q4_K => dotI8Q4KNeonV1 A row xq cols
  | .Q6_K => dotI8Q6KNeon A row xq cols
  | _ => dotI8Any A f row xq cols

/-- `dot2_i8k_q4_K_shadow_smmla`. -/
def dot2I8kQ4KShadowSmmla (pbase : ℕ → UInt8) (xk : ℕ → BlkQ8K F) (cols : ℕ) : F × F :=
  let a := iter (cols / 256) (acc0 A, acc0 A) fun sb a =>
    let o := off pbase (sb * 560)
    let qi := off o 48
    let xs := (xk sb).qs
    let lanes (g : ℕ) := iter 4 (vdupqNS32 0) fun c8 acc =>
      let x := off xs (g * 32 + c8 * 8)
      vmmlaqS32 acc (vld1q (off qi ((g * 4 + c8) * 16))) (vcombineS8 x x)
    let bs (g : ℕ) := (xk sb).bsums (2 * g) + (xk sb).bsums (2 * g + 1)
    let dk := (xk sb).d
    let fold (hdr lane : ℕ) (a4 : ℕ → F) : ℕ → F :=
      let iacc := isum 8 fun g => (off o (hdr + 8) g).toNat * lanes g lane
      let imins := isum 8 fun g => (off o (hdr + 16) g).toNat * bs g
      let a4 := fmaAt A a4 (sb % 4) (A.mul (A.ofBits (le32 o hdr)) dk) (A.ofInt iacc)
      fmaAt A a4 (sb % 4) (A.neg (A.mul (A.ofBits (le32 o (hdr + 4))) dk)) (A.ofInt imins)
    (fold 0 0 a.1, fold 24 2 a.2)
  (fold4 A a.1, fold4 A a.2)

/-- `y[p * ystride + r] += v(p)` for every column. -/
def addRow (t : TaskParams) (r : ℕ) (v : ℕ → F) (y : Loc → F) : Loc → F :=
  iter t.columns y fun p y => addAt A y (t.out p r) (v p)

/-- The branch of `exec_task_cpu` for the q8_K appendix.  `scratch` is what the thread's buffer of
interleaved activations holds before. -/
def execI8kNeon (c : NeonConfig) (m : TileMem F) (t : TaskParams) (scratch : ℕ → UInt8)
    (y : Loc → F) : Loc → F :=
  let w := tileW m t
  let rb := rowBytes t.fmt t.cols
  let row (r : ℕ) := m.row (w.add (r * rb))
  let nx := t.columns
  let xk (p : ℕ) := m.xqk (t.inCol p) t.cols
  if nx > 1 ∧ ¬ c.mcLegacy then
    if c.matmulInt8 ∧ t.fmt = .Q4_K ∧ c.smmlaOn ∧ nx ≥ 2 ∧ nx % 2 = 0 ∧ t.rows ≥ 2 ∧
        t.cols % 256 = 0 ∧ nx * t.cols ≤ kSmmlaScratchBytes then
      let xi := flInterleaveActQ8k xk nx t.cols scratch
      let y := iter (t.rows / 2) y fun i y =>
        let r := 2 * i
        let v := dotI8kQ4KNeonMcSmmla A (row r) (row (r + 1)) xk xi nx t.cols
        iter nx y fun p y =>
          addAt A (addAt A y (t.out p r) (v p).1) (t.out p (r + 1)) (v p).2
      -- odd tail
      iter (t.rows % 2) y fun i y =>
        let r := t.rows / 2 * 2 + i
        addRow A t r (dotI8kQ4KNeonMc A (row r) xk nx t.cols) y
    else
      iter t.rows y fun r y =>
        let vals := if t.fmt = .Q4_K then dotI8kQ4KNeonMc A (row r) xk nx t.cols
          else dotI8kQ6KNeonMc A (row r) xk nx t.cols
        addRow A t r vals y
  else
    let packed := addTile A t fun r p => dotRowI8kNeon A t.fmt (row r) (xk p) t.cols
    match if t.fmt = .Q4_K ∧ c.shadowEnabled then flShadowFind c.spans w else none with
    | some sp =>
      let r0i := (w.byte - sp.base.byte) / sp.packedRowBytes
      if c.matmulInt8 ∧ sp.smmla ∧ r0i % 2 = 0 then
        let prb2 := sp.shadowRowBytes * 2
        let y := iter (t.rows / 2) y fun i y =>
          let r := 2 * i
          let pb := off (ptr sp.shadow) ((r0i + r) / 2 * prb2)
          iter nx y fun p y =>
            let v := dot2I8kQ4KShadowSmmla A pb (xk p) t.cols
            addAt A (addAt A y (t.out p r) v.1) (t.out p (r + 1)) v.2
        -- odd tail: packed path
        iter (t.rows % 2) y fun i y =>
          let r := t.rows / 2 * 2 + i
          addRow A t r (fun p => dotRowI8kNeon A t.fmt (row r) (xk p) t.cols) y
      else if c.matmulInt8 ∧ sp.smmla then packed y
      else
        let s0 := flShadowRow sp w
        addTile A t (fun r p =>
          dotI8kQ4KShadowNeon A (off s0 (r * sp.shadowRowBytes)) (xk p) t.cols) y
    | none => packed y

/-- The branch of `exec_task_cpu` for the q8_1 appendix. -/
def execI8Neon (c : NeonConfig) (m : TileMem F) (t : TaskParams) (y : Loc → F) : Loc → F :=
  let w := tileW m t
  let rb := rowBytes t.fmt t.cols
  let row (r : ℕ) := m.row (w.add (r * rb))
  let nx := t.columns
  let xq (p : ℕ) := m.xq (t.inCol p) t.cols
  if t.fmt = .Q4_K ∧ t.cols / 32 ≤ kMaxActBlocks then
    let ones := vdupqN8 1
    let xsum (p b : ℕ) := vaddvqS32 (vdotqS32 (vdotqS32 (vdupqNS32 0) ones (vld1q (xq p b).qs)) ones
      (vld1q (off (xq p b).qs 16)))
    let xd (p b : ℕ) := A.ofHalf (xq p b).d
    addTile A t (fun r p => dotI8Q4KNeonV2 A (row r) (xq p) (xsum p) (xd p) t.cols) y
  else if nx > 1 ∧ ¬ c.mcLegacy ∧ t.fmt = .Q8_0 then
    iter t.rows y fun r y => addRow A t r (dotI8Q80NeonMc A (row r) xq nx t.cols) y
  else
    match if t.fmt = .Q5_0 ∧ c.shadowEnabled then flShadowFind c.spans w else none with
    | some sp =>
      let s0 := flShadowRow sp w
      addTile A t (fun r p =>
        dotI8Q50ShadowNeon A (off s0 (r * sp.shadowRowBytes)) (xq p) t.cols) y
    | none => addTile A t (fun r p => dotRowI8Neon A t.fmt (row r) (xq p) t.cols) y

end
end FastLlm
