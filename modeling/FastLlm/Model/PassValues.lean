import FastLlm.Model.BuildGraph
import FastLlm.Spec.SuffixIndex

/-!
# What a pass computes

The graph of a pass says which buffer every operation reads and which it writes.  Here the
operations are followed along these buffers: a stage is a function of the buffers its parameter
blocks point to, with the operations of the executor run on buffers of their own.  Slots are zero
when a pass begins.  What a pass leaves to the next is the KV cache, of which a position reads the
rows up to its own.

## Main definitions

* `Numerics` — what a pass computes with.
* `runOp` — an operation on buffers of its own.
* `Pass.project`, `Pass.attend`, `Pass.ffnDense`, `Pass.ffnMoe` — the stages at one position.
* `Pass.layer`, `Pass.run` — a layer and a pass, over all positions.
* `Pass.pick` — the token of a position.
-/

namespace FastLlm

/-- The float operations, the words of the mapped model file, `dequant_chunk` on the bytes of an
embedding row, and the certified argmax of a final norm with a hint. -/
structure Numerics where
  E : FloatOps
  file : Loc → Word
  dequantChunk : Fmt → List UInt8 → List Word
  certArgmax : List Word → Token → Token

/-- A row of the K and of the V cache of a layer. -/
structure KvRow where
  k : List Word
  v : List Word
  deriving DecidableEq, Inhabited

/-- The rows of every layer. -/
abbrev KvCache := ℕ → ℕ → KvRow

/-! ## Operations -/

/-- Buffers as the allocations `0`, `1`, …. -/
def bufs (bs : List (List Word)) : Loc → Word := fun p => (bs.getD p.obj []).getD p.off 0

/-- Run an operation on the buffers `bs`; the first `n` words of allocation `obj` after it. -/
def runOp (op : Exec Unit) (bs : List (List Word)) (obj n : ℕ) : List Word :=
  (List.range n).map fun i => op.final (bufs bs) ⟨obj, i⟩

namespace Pass
variable (N : Numerics) (D : Decoder)

/-- The tensor of a name.  A decoder with a missing tensor is not built. -/
def weight (n : TensorName) : WTensor := (D.weights n).getD ⟨⟨0, 0⟩, .F32, 0, 0, 0, 0, 0⟩

def layerWeight (l : ℕ) (c : LayerTensor) : WTensor := weight D (.blk (.ofNat l) c)

/-- The product of the matrix at `base` with a column, added to zeroed slots. -/
def dot (w : WTensor) (base : BytePtr) (x : List Word) : List Word :=
  (List.range w.rows.toNat).map fun r =>
    let row := (readBytes (base.add (r * w.rowBytes.toNat)) (rowBytes w.fmt w.cols.toNat)).val N.file
    N.E.add 0 (N.E.dotRow w.fmt row ((readWords ⟨0, 0⟩ w.cols.toNat).val (bufs [x])))

def rmsNorm (w : WTensor) (x : List Word) (n : ℕ) : List Word :=
  runOp (opRmsnorm N.E { wnorm := ⟨0, 0⟩, x := ⟨1, 0⟩, y := ⟨2, 0⟩, eps := D.hp.rmsEps, n := n })
    [(readWords w.floats n).val N.file, x] 2 n

def add2 (a b : List Word) : List Word :=
  runOp (opAdd2 N.E { a := ⟨0, 0⟩, b := ⟨1, 0⟩, y := ⟨2, 0⟩, n := D.hp.nEmbd.toNat })
    [a, b] 2 D.hp.nEmbd.toNat

def siluMul (gate up : List Word) (n : ℕ) : List Word :=
  runOp (opSiluMul N.E { gate := ⟨0, 0⟩, up := ⟨1, 0⟩, h := ⟨2, 0⟩, n := n }) [gate, up] 2 n

/-- In place. -/
def rope (buf : List Word) (pos : Word) (nHead headStride rotOff nRot : ℕ) : List Word :=
  runOp (opRopeDs2 N.E
    { buf := ⟨0, 0⟩, pos := ⟨1, 0⟩, nHead := nHead, headStride := headStride, rotOff := rotOff
      nRot := nRot, freqBase := D.hp.freqBase, freqScale := D.hp.freqScale
      extFactor := D.hp.extFactor, attnFactor := D.hp.attnFactor, betaFast := D.hp.betaFast
      betaSlow := D.hp.betaSlow, nCtxOrig := D.hp.nCtxOrig }) [buf, [pos]] 0 buf.length

/-- The rows a position appends; the operation is run with the rows of its position in front. -/
def kvAppend (kvb kpe : List Word) : KvRow :=
  let op := opKvAppend
    { kvb := ⟨0, 0⟩, kpe := ⟨1, 0⟩, kcache := ⟨2, 0⟩, vcache := ⟨3, 0⟩, pos := ⟨4, 0⟩
      nHead := D.hp.nHead.toNat, dNope := D.hp.dNope.toNat, dRope := D.hp.dRope.toNat
      dV := D.hp.dv.toNat }
  ⟨runOp op [kvb, kpe] 2 (D.hp.nHead.toNat * D.hp.dk.toNat),
    runOp op [kvb, kpe] 3 (D.hp.nHead.toNat * D.hp.dv.toNat)⟩

/-- All heads of a position, with the cache rows `0 .. pos`. -/
def attnHeads (q : List Word) (rows : List KvRow) (pos : Word) : List Word :=
  let nHead := D.hp.nHead.toNat
  let op := MemProg.forRange nHead fun hh => opAttnHead N.E
    { q := ⟨0, 0⟩, kcache := ⟨1, 0⟩, vcache := ⟨2, 0⟩, scratch := ⟨3, hh * D.o.maxKv.toNat⟩
      out := ⟨4, 0⟩, pos := ⟨5, 0⟩, scale := D.hp.kqScale, head := hh, nHead := nHead
      dk := D.hp.dk.toNat, dv := D.hp.dv.toNat }
  runOp op [q, rows.flatMap (·.k), rows.flatMap (·.v), [], [], [pos]] 4 (nHead * D.hp.dv.toNat)

/-- The selected experts and their gates. -/
def routerSel (logits : List Word) : List Word × List Word :=
  let nUsed := D.hp.nUsed.toNat
  let op := opRouterSel N.E
    { logits := ⟨0, 0⟩, ids := ⟨1, 0⟩, gates := ⟨2, 0⟩, nExpert := D.hp.nExpert.toNat, topK := nUsed
      norm := D.hp.expertNorm ≠ 0, scale := D.hp.expertScale }
  (runOp op [logits] 1 nUsed, runOp op [logits] 2 nUsed)

/-- The merge at the end of a layer; `gates` and `add2` as in the parameter block. -/
def wmerge (parts : List Word) (gates : Option (List Word)) (x2 : List Word)
    (shared : Option (List Word)) (nParts nFull : ℕ) : List Word :=
  runOp (opWmerge N.E
    { parts := ⟨0, 0⟩, gates := gates.map fun _ => ⟨1, 0⟩, add1 := some ⟨2, 0⟩
      add2 := shared.map fun _ => ⟨3, 0⟩, y := ⟨4, 0⟩, scale := 0x3f800000, nParts := nParts
      n := D.hp.nEmbd.toNat, nFull := nFull })
    [parts, gates.getD [], x2, shared.getD []] 4 D.hp.nEmbd.toNat

/-! ## Stages at one position -/

/-- What the projections of a position leave: its rotated query and its cache rows. -/
structure Projected where
  q : List Word
  row : KvRow

/-- Stages A to D, the ropes and the append. -/
def project (l pos : ℕ) (x : List Word) : Projected :=
  let hp := D.hp
  let W := layerWeight D l
  let xn := rmsNorm N D (W .attnNorm) x hp.nEmbd.toNat
  let qb := dot N (W .attnQ) (W .attnQ).p xn
  let kva := dot N (W .attnKvAMqa) (W .attnKvAMqa).p xn
  let ckv := rmsNorm N D (W .attnKvANorm) kva hp.kvLora.toNat
  let kvb := dot N (W .attnKvB) (W .attnKvB).p ckv
  let q := rope N D qb (.ofNat pos) hp.nHead.toNat hp.dk.toNat hp.dNope.toNat hp.dRope.toNat
  let kpe := rope N D (kva.drop hp.kvLora.toNat) (.ofNat pos) 1 hp.dRope.toNat 0 hp.dRope.toNat
  ⟨q, kvAppend D kvb kpe⟩

/-- The heads, stage F and the residual of stage G. -/
def attend (l pos : ℕ) (x q : List Word) (rows : List KvRow) : List Word :=
  let w := layerWeight D l .attnOutput
  add2 N D x (dot N w w.p (attnHeads N D q rows (.ofNat pos)))

/-- Gate, up, SiLU and down; `at'` is where a matrix lies. -/
def gateUpDown (wg wu wd : WTensor) (at' : WTensor → BytePtr) (n : ℕ) (xf : List Word) : List Word :=
  dot N wd (at' wd) (siluMul N (dot N wg (at' wg) xf) (dot N wu (at' wu) xf) n)

def ffnDense (l : ℕ) (x2 : List Word) : List Word :=
  let W := layerWeight D l
  let xf := rmsNorm N D (W .ffnNorm) x2 D.hp.nEmbd.toNat
  let dd := gateUpDown N (W .ffnGate) (W .ffnUp) (W .ffnDown) (·.p) D.hp.nFfDense.toNat xf
  wmerge N D dd none x2 none 1 0

/-- With the `ku` experts of the largest weights. -/
def ffnMoe (l : ℕ) (ku : UInt32) (x2 : List Word) : List Word :=
  let W := layerWeight D l
  let xf := rmsNorm N D (W .ffnNorm) x2 D.hp.nEmbd.toNat
  let rt := routerSel N D (dot N (W .ffnGateInp) (W .ffnGateInp).p xf)
  let expert (s : ℕ) (w : WTensor) : BytePtr := w.p.add ((rt.1.getD s 0).toNat * w.estride.toNat)
  let parts := (List.range ku.toNat).flatMap fun s =>
    gateUpDown N (W .ffnGateExps) (W .ffnUpExps) (W .ffnDownExps) (expert s) D.hp.nFfExp.toNat xf
  let shared := gateUpDown N (W .ffnGateShexp) (W .ffnUpShexp) (W .ffnDownShexp) (·.p)
    (W .ffnGateShexp).rows.toNat xf
  wmerge N D parts (some rt.2) x2 (some shared) ku.toNat
    (if D.o.approxRenorm ∧ ku < D.hp.nUsed then D.hp.nUsed.toNat else 0)

def ffn (l : ℕ) (ku : UInt32) (x2 : List Word) : List Word :=
  if l < D.hp.nDenseLead.toNat then ffnDense N D l x2 else ffnMoe N D l ku x2

/-- A layer at one position: from its residual stream and the cache rows up to its own. -/
def block (l pos : ℕ) (ku : UInt32) (x : List Word) (rows : List KvRow) : List Word :=
  ffn N D l ku (attend N D l pos x (project N D l pos x).q rows)

/-! ## The pass -/

/-- The rows of layer `l` after the appends of the positions `nPast .. nPast + m`. -/
def appended (m nPast l : ℕ) (x : ℕ → List Word) (kv : KvCache) : ℕ → KvRow := fun j =>
  if nPast ≤ j ∧ j < nPast + m then (project N D l j (x (j - nPast))).row else kv l j

/-- Layer `l` of a pass over `m` positions: the residual streams, and the cache. -/
def layer (m nPast l : ℕ) (s : (ℕ → List Word) × KvCache) : (ℕ → List Word) × KvCache :=
  let rows := appended N D m nPast l s.1 s.2
  (fun p => block N D l (nPast + p) (Build.expertsAt D m p) (s.1 p)
    ((List.range (nPast + p + 1)).map rows), Function.update s.2 l rows)

/-- The first `n` layers. -/
def layers (m nPast : ℕ) (x : ℕ → List Word) (kv : KvCache) : ℕ → (ℕ → List Word) × KvCache
  | 0 => (x, kv)
  | l + 1 => layer N D m nPast l (layers m nPast x kv l)

/-- The final norms of a pass, and the cache it leaves. -/
def run (m nPast : ℕ) (x : ℕ → List Word) (kv : KvCache) : (ℕ → List Word) × KvCache :=
  let r := layers N D m nPast x kv D.hp.nLayer.toNat
  (fun p => rmsNorm N D (weight D .outputNorm) (r.1 p) D.hp.nEmbd.toNat, r.2)

/-- `x_cur` of a token. -/
def embed (tok : Token) : List Word :=
  let w := weight D .tokenEmbd
  let row := w.p.add (tok.toInt64.toUInt64 * w.rowBytes).toNat
  if w.fmt = .F32 then (readWords ⟨row.obj, row.byte / 4⟩ D.hp.nEmbd.toNat).val N.file
  else N.dequantChunk w.fmt ((readBytes row w.rowBytes.toNat).val N.file)

/-- Greedy argmax; ties go to the lower id. -/
def greedy (lg : List Word) : Token :=
  let best := (List.range (D.hp.nVocab.toNat - 1)).foldl (fun (b : ℕ × Word) i =>
    if N.E.lt b.2 (lg.getD (i + 1) 0) then (i + 1, lg.getD (i + 1) 0) else b) (0, lg.getD 0 0)
  (UInt32.ofNat best.1).toInt32

/-- The answer for a position, from its final norm. -/
def pick (xF : List Word) (hint : Token) : Token :=
  if D.o.hcMode = .on then N.certArgmax xF hint
  else greedy N D (dot N (weight D .output) (weight D .output).p xF)

end Pass
end FastLlm
