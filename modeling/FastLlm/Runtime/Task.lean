import FastLlm.Runtime.DecodeParams
import Mathlib.Algebra.Ring.Nat

/-!
# Task records

A task is what one worker executes at a time.  Its parameters are set by whoever
builds the graph; its number, its consumers and its dependency count belong to the
graph.

## Main definitions

* `TaskParams`, `Task` — the record.
* `execTaskScalar` — the canonical executor.
* `taskQueue` — the queue a ready task is pushed to.
-/

namespace FastLlm

inductive Engine
  | GPU | CPU | ANY
  deriving DecidableEq, Repr

inductive TaskKind
  | STREAM_DOT | MERGE | SIGNAL | ACT_Q8 | STREAM_DOT_IDX | RMSNORM | ADD2 | ROPE_DS2
  | KV_APPEND | ATTN_HEAD | ROUTER_SEL | SILU_MUL | WMERGE
  deriving DecidableEq, Repr

/-- The numeric value both executors switch on. -/
def TaskKind.num : TaskKind → ℕ
  | STREAM_DOT => 0
  | MERGE => 1
  | SIGNAL => 2
  | ACT_Q8 => 3
  | STREAM_DOT_IDX => 4
  | RMSNORM => 5
  | ADD2 => 6
  | ROPE_DS2 => 7
  | KV_APPEND => 8
  | ATTN_HEAD => 9
  | ROUTER_SEL => 10
  | SILU_MUL => 11
  | WMERGE => 12

def kNumTaskKinds : ℕ := 13
def kMaxConsumers : ℕ := 6
def kMaxDotCols : ℕ := 16

/-- The block `Task::aux` points to: the expert id slot of a `STREAM_DOT_IDX`, the
parameters of a decode operation. -/
inductive Aux
  | idSlot (p : Loc)
  | rmsnorm (p : RmsNormP)
  | add2 (p : Add2P)
  | rope (p : RopeP)
  | kvAppend (p : KvAppendP)
  | attnHead (p : AttnHeadP)
  | router (p : RouterP)
  | siluMul (p : SiluMulP)
  | wmerge (p : WmergeP)
  deriving DecidableEq, Repr

/-- The fields a builder sets.  Pointers default to null, allocation 0. -/
structure TaskParams where
  kind : TaskKind := .STREAM_DOT
  affinity : Engine := .GPU
  fmt : Fmt := .F32
  w : BytePtr := ⟨0, 0⟩
  wBytes : ℕ := 0
  x : Loc := ⟨0, 0⟩
  y : Loc := ⟨0, 0⟩
  rows : ℕ := 0
  cols : ℕ := 0
  aux : Option Aux := none
  aux2 : ℕ := 0
  nx : ℕ := 1
  xstride : ℕ := 0
  ystride : ℕ := 0
  deriving DecidableEq, Repr

/-- A record of the task table.  `consumers` stands for `n_consumers` and the array. -/
structure Task extends TaskParams where
  id : ℕ := 0
  consumers : List ℕ := []
  depInit : ℤ := 0
  deriving DecidableEq, Repr

instance : Inhabited Task := ⟨{}⟩

/-! ## The canonical executor -/

section Exec
variable (E : FloatOps)
open MemProg (get put forRange)

/-- Weight base of a `STREAM_DOT_IDX`: the expert the router selected. -/
def idxW (t : TaskParams) : Exec BytePtr :=
  match t.aux with
  | some (.idSlot p) => do
      let id ← get p
      pure (t.w.add (id.toNat * t.aux2))
  | _ => pure t.w

/-- `y[p * ystride + r] += dot(W[r], x + p * xstride)` for every row and column. -/
def execStreamDot (t : TaskParams) (w : BytePtr) : Exec Unit :=
  let rb := rowBytes t.fmt t.cols
  let nx := if t.nx ≠ 0 then t.nx else 1
  forRange t.rows fun r => forRange nx fun p => do
    let row ← readBytes (w.add (r * rb)) rb
    let x ← readWords (t.x.add (p * t.xstride)) t.cols
    let y := t.y.add (p * t.ystride + r)
    let v ← get y
    put y (E.add v (E.dotRow t.fmt row x))

/-- `y[i] = sum of x[p * rows + i]` over the parts `p < cols`. -/
def execMerge (t : TaskParams) : Exec Unit :=
  forRange t.rows fun i => do
    let acc ← MemProg.loop (fun p acc => do
      let x ← get (t.x.add (p * t.rows + i))
      pure (E.add acc x)) t.cols (E.lit 0 0)
    put (t.y.add i) acc

/-- Quantize one block of `n` floats at `x` into `k` words at `o`. -/
def quantBlock (q : List Word → ℕ → Word) (x : Loc) (n : ℕ) (o : Loc) (k : ℕ) : Exec Unit := do
  let xs ← readWords x n
  forRange k fun i => put (o.add i) (q xs i)

/-- q8_1 blocks at `y`, q8_K blocks at the second appendix of `x`. -/
def execActQ8 (t : TaskParams) : Exec Unit := do
  forRange (t.cols / 32) fun b => quantBlock E.quantQ81 (t.x.add (b * 32)) 32 (t.y.add (b * 9)) 9
  let ok := t.x.add (xqkOf t.cols / 4)
  forRange (t.cols / 256) fun b =>
    quantBlock E.quantQ8K (t.x.add (b * 256)) 256 (ok.add (b * 73)) 73

/-- The canonical executor.  A decode kind whose block is of another kind is not built
by anyone; it is modelled as doing nothing. -/
def execTaskScalar (t : TaskParams) : Exec Unit :=
  match t.kind, t.aux with
  | .STREAM_DOT, _ => execStreamDot E t t.w
  | .STREAM_DOT_IDX, _ => do
      let w ← idxW t
      execStreamDot E t w
  | .MERGE, _ => execMerge E t
  | .ACT_Q8, _ => execActQ8 E t
  | .RMSNORM, some (.rmsnorm p) => opRmsnorm E p
  | .ADD2, some (.add2 p) => opAdd2 E p
  | .ROPE_DS2, some (.rope p) => opRopeDs2 E p
  | .KV_APPEND, some (.kvAppend p) => opKvAppend p
  | .ATTN_HEAD, some (.attnHead p) => opAttnHead E p
  | .ROUTER_SEL, some (.router p) => opRouterSel E p
  | .SILU_MUL, some (.siluMul p) => opSiluMul E p
  | .WMERGE, some (.wmerge p) => opWmerge E p
  | _, _ => pure ()

end Exec

@[instance] theorem neZero_four : NeZero 4 := ⟨by decide⟩

/-- Queue routing shared by both publishers: decode operations go to the CPU-only
queue, codebook dots to the GPU-only one, the rest by affinity. -/
def taskQueue (t : TaskParams) (gpuEnabled : Bool) : Fin 4 :=
  if TaskKind.RMSNORM.num ≤ t.kind.num then 2
  else if fmtIsCodebook t.fmt then (if gpuEnabled then 3 else 1)
  else if t.affinity = .GPU then 0
  else if t.affinity = .CPU then 1
  else if gpuEnabled then 0 else 1

end FastLlm
