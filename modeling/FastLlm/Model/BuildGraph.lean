import FastLlm.Model.Builder

/-!
# The graph of a pass

`build_graph_m` wires one pass over `m` positions: the layers with their attention and
feed-forward stages, the final norms and the head.  Positions couple only through the
KV cache, by the cumulative append signal of each layer.  The checkpoint taps are left
out.

## Main definitions

* `attention`, `ffnDense`, `ffnMoe`, `layer`, `head`, `wire` — the text of the builder.
* `GraphSet`, `buildGraphM`, `buildGraphs` — the builder itself.
-/

namespace FastLlm

/-- A weight read as floats. -/
def WTensor.floats (w : WTensor) : Loc := ⟨w.p.obj, w.p.byte / 4⟩

/-- The residual stream: where it is, and what wrote it. -/
structure Residual where
  x : ℕ → Loc
  dep : ℕ → Option ℕ

/-- What the FFN of a layer finds: the residual, its norm, and for every position the
tasks that wrote the residual, its norm and its quantization. -/
structure FfnIn where
  x2 : Cols
  xf : Cols
  tx2 : ℕ → ℕ
  fn : ℕ → ℕ
  fq8 : ℕ → ℕ

namespace Build
variable (D : Decoder)

/-! ## Operations of a layer -/

def layerTensor (l : UInt32) (c : LayerTensor) : Build WTensor := tensor D (.blk l c)

/-- A parameter block and the operation on it. -/
def addAuxOp (k : TaskKind) (a : Aux) (deps : List ℕ) : Build ℕ := do
  let p ← auxAlloc a
  addOp k p deps

/-- RMS norm of `n` floats. -/
def addRmsNorm (w : WTensor) (x y : Loc) (n : UInt32) (deps : List ℕ) : Build ℕ :=
  addAuxOp .RMSNORM
    (.rmsnorm { wnorm := w.floats, x := x, y := y, eps := D.hp.rmsEps, n := n.toNat }) deps

/-- `h = silu(gate) * up` and the quantization of `h`. -/
def addSiluQ8 (gate up h : Loc) (n : UInt32) (deps : List ℕ) : Build ℕ := do
  let tS ← addAuxOp .SILU_MUL (.siluMul { gate := gate, up := up, h := h, n := n.toNat }) deps
  addActQ8 tS h n

def addRope (buf pos : Loc) (nHead headStride rotOff nRot : UInt32) (deps : List ℕ) : Build ℕ :=
  addAuxOp .ROPE_DS2 (.rope
    { buf := buf, pos := pos, nHead := nHead.toNat, headStride := headStride.toNat
      rotOff := rotOff.toNat, nRot := nRot.toNat, freqBase := D.hp.freqBase
      freqScale := D.hp.freqScale, extFactor := D.hp.extFactor, attnFactor := D.hp.attnFactor
      betaFast := D.hp.betaFast, betaSlow := D.hp.betaSlow, nCtxOrig := D.hp.nCtxOrig }) deps

/-! ## Attention -/

/-- Stage A: attention norm and activation quant. -/
def stageA (l : UInt32) (m : ℕ) (r : Residual) (xn : Cols) : Build (ℕ → ℕ) :=
  positions m fun p => do
    let w ← layerTensor D l .attnNorm
    let tAn ← addRmsNorm D w (r.x p) (xn.col p) D.hp.nEmbd (r.dep p).toList
    addActQ8 tAn (xn.col p) D.hp.nEmbd

/-- Stage C: norm and quant of the compressed KV. -/
def stageC (l : UInt32) (m : ℕ) (kva ckv : Cols) (skva : ℕ → ℕ) : Build (ℕ → ℕ) :=
  positions m fun p => do
    let w ← layerTensor D l .attnKvANorm
    let tKn ← addRmsNorm D w (kva.col p) (ckv.col p) D.hp.kvLora [skva p]
    addActQ8 tKn (ckv.col p) D.hp.kvLora

/-- The K rows of layer `l`. -/
def kcOf (l : UInt32) : Loc :=
  D.kcache.add (l.toUInt64 *
    (D.o.maxKv.toUInt64 * D.hp.nHead.toUInt64 * D.hp.dk.toUInt64)).toNat

/-- The V rows of layer `l`. -/
def vcOf (l : UInt32) : Loc :=
  D.vcache.add (l.toUInt64 *
    (D.o.maxKv.toUInt64 * D.hp.nHead.toUInt64 * D.hp.dv.toUInt64)).toNat

/-- Append position `p` to the KV cache. -/
def addKvAppend (l : UInt32) (p : ℕ) (kvb kva : Cols) (deps : List ℕ) : Build ℕ :=
  addAuxOp .KV_APPEND (.kvAppend
    { kvb := kvb.col p, kpe := (kva.col p).add D.hp.kvLora.toNat, kcache := kcOf D l
      vcache := vcOf D l, pos := D.pos.add p, nHead := D.hp.nHead.toNat
      dNope := D.hp.dNope.toNat, dRope := D.hp.dRope.toNat, dV := D.hp.dv.toNat }) deps

/-- The heads of position `p`, fanned in. -/
def addHeads (l : UInt32) (p : ℕ) (q ctx scr : Loc) (deps : List ℕ) : Build ℕ := do
  let heads ← (List.range D.hp.nHead.toNat).mapM fun hh =>
    addAuxOp .ATTN_HEAD (.attnHead
      { q := q, kcache := kcOf D l, vcache := vcOf D l
        scratch := scr.add (hh * D.o.maxKv.toNat), out := ctx, pos := D.pos.add p
        scale := D.hp.kqScale, head := hh, nHead := D.hp.nHead.toNat, dk := D.hp.dk.toNat
        dv := D.hp.dv.toNat }) deps
  fanIn heads

/-- The signal that covers the appends of the positions up to this one. -/
def appendChain (appCum : Option ℕ) (tApp : ℕ) : Build ℕ :=
  match appCum with
  | none => pure tApp
  | some a => fanIn [a, tApp]

/-- Stage E at position `p`: rope, the causal append chain, the heads and the quant of
their output.  `appCum` covers the appends of the positions before `p`. -/
def stageEAt (l : UInt32) (qb kva kvb ctx : Cols) (sq skva skvb : ℕ → ℕ) (p : ℕ)
    (appCum : Option ℕ) : Build (ℕ × ℕ) := do
  let tRq ← addRope D (qb.col p) (D.pos.add p) D.hp.nHead D.hp.dk D.hp.dNope D.hp.dRope [sq p]
  let tRk ← addRope D ((kva.col p).add D.hp.kvLora.toNat) (D.pos.add p) 1 D.hp.dRope 0 D.hp.dRope
    [skva p]
  let tApp ← addKvAppend D l p kvb kva [skvb p, tRk]
  let appCum ← appendChain appCum tApp
  let scr ← alloc (D.hp.nHead.toUInt64 * D.o.maxKv.toUInt64 * 4) 128
  let tHeads ← addHeads D l p (qb.col p) (ctx.col p) scr [tRq, appCum]
  let cq8 ← addActQ8 tHeads (ctx.col p) (D.hp.nHead * D.hp.dv)
  pure (appCum, cq8)

/-- Stage E, in position order. -/
def stageE (l : UInt32) (m : ℕ) (qb kva kvb ctx : Cols) (sq skva skvb : ℕ → ℕ) :
    Build (ℕ → ℕ) := do
  let r ← (List.range m).foldlM (fun (s : Option ℕ × List ℕ) p => do
    let (appCum, cq8) ← stageEAt D l qb kva kvb ctx sq skva skvb p s.1
    pure (some appCum, s.2 ++ [cq8])) (none, [])
  pure fun p => r.2.getD p default

/-- Stage G: residual add, then norm and quant for the FFN. -/
def stageG (l : UInt32) (m : ℕ) (r : Residual) (ao x2 xf : Cols) (so : ℕ → ℕ) :
    Build (ℕ → ℕ × ℕ × ℕ) :=
  positions m fun p => do
    let tx2 ← addAuxOp .ADD2
      (.add2 { a := r.x p, b := ao.col p, y := x2.col p, n := D.hp.nEmbd.toNat })
      (so p :: (r.dep p).toList)
    let w ← layerTensor D l .ffnNorm
    let fn ← addRmsNorm D w (x2.col p) (xf.col p) D.hp.nEmbd [tx2]
    let fq8 ← addActQ8 fn (xf.col p) D.hp.nEmbd
    pure (tx2, fn, fq8)

/-- Stages A to G. -/
def attention (l : UInt32) (m : ℕ) (rowsz : UInt32) (r : Residual) : Build FfnIn := do
  let hp := D.hp
  let xn ← bufAllocCols hp.nEmbd m
  let qb ← slotAllocCols (hp.nHead * hp.dk) m
  let kva ← slotAllocCols (hp.kvLora + hp.dRope) m
  let ckv ← bufAllocCols hp.kvLora m
  let kvb ← slotAllocCols (hp.nHead * (hp.dNope + hp.dv)) m
  let ctx ← bufAllocCols (hp.nHead * hp.dv) m
  let ao ← slotAllocCols hp.nEmbd m
  let x2 ← bufAllocCols hp.nEmbd m
  let xf ← bufAllocCols hp.nEmbd m
  let aq ← stageA D l m r xn
  let wq ← layerTensor D l .attnQ
  let sq ← stageDot D.o wq xn qb m aq rowsz
  let wkva ← layerTensor D l .attnKvAMqa
  let skva ← stageDot D.o wkva xn kva m aq rowsz
  let kq8 ← stageC D l m kva ckv skva
  let wkvb ← layerTensor D l .attnKvB
  let skvb ← stageDot D.o wkvb ckv kvb m kq8 rowsz
  let cq8 ← stageE D l m qb kva kvb ctx sq skva skvb
  let wo ← layerTensor D l .attnOutput
  let so ← stageDot D.o wo ctx ao m cq8 rowsz
  let g ← stageG D l m r ao x2 xf so
  pure ⟨x2, xf, fun p => (g p).1, fun p => (g p).2.1, fun p => (g p).2.2⟩

/-! ## FFN -/

/-- Gate and up projections, SiLU and the down projection over all positions; the
result at `p` covers the down projection of position `p`. -/
def gateUpDown (wg wu : LayerTensor) (wd : LayerTensor) (l : UInt32) (m : ℕ) (rowsz n : UInt32)
    (i : FfnIn) (gg uu hh dd : Cols) : Build (ℕ → ℕ) := do
  let wg ← layerTensor D l wg
  let sg ← stageDot D.o wg i.xf gg m i.fq8 rowsz
  let wu ← layerTensor D l wu
  let su ← stageDot D.o wu i.xf uu m i.fq8 rowsz
  let hq8 ← positions m fun p => addSiluQ8 (gg.col p) (uu.col p) (hh.col p) n [sg p, su p]
  let wd ← layerTensor D l wd
  stageDot D.o wd hh dd m hq8 rowsz

def ffnDense (l : UInt32) (m : ℕ) (rowsz : UInt32) (i : FfnIn) (xo : Cols) : Build (ℕ → ℕ) := do
  let gg ← slotAllocCols D.hp.nFfDense m
  let uu ← slotAllocCols D.hp.nFfDense m
  let hh ← bufAllocCols D.hp.nFfDense m
  let dd ← slotAllocCols D.hp.nEmbd m
  let sd ← gateUpDown D .ffnGate .ffnUp .ffnDown l m rowsz D.hp.nFfDense i gg uu hh dd
  positions m fun p =>
    addAuxOp .WMERGE (.wmerge
      { parts := dd.col p, gates := none, add1 := some (i.x2.col p), add2 := none
        y := xo.col p, scale := 0x3f800000, nParts := 1, n := D.hp.nEmbd.toNat, nFull := 0 })
      [sd p, i.tx2 p]

instance : Inhabited Loc := ⟨⟨0, 0⟩⟩

/-- The routing of one position: its task, its expert ids and its gates. -/
structure Routed where
  tRt : ℕ
  ids : Loc
  gate : Loc
  deriving Inhabited

/-- Router logits and selection at position `p`. -/
def addRouter (l : UInt32) (rowsz : UInt32) (i : FfnIn) (p : ℕ) : Build Routed := do
  let rlog ← slotAlloc D.hp.nExpert
  let w ← layerTensor D l .ffnGateInp
  let tRl ← addDot D.o w (i.xf.col p) rlog [i.fn p] rowsz none
  let ids ← alloc (D.hp.nUsed * 4).toUInt64 64
  let gate ← alloc (D.hp.nUsed * 4).toUInt64 64
  let tRt ← addAuxOp .ROUTER_SEL (.router
    { logits := rlog, ids := ids, gates := gate, nExpert := D.hp.nExpert.toNat
      topK := D.hp.nUsed.toNat, norm := D.hp.expertNorm ≠ 0, scale := D.hp.expertScale }) [tRl]
  pure ⟨tRt, ids, gate⟩

/-- The routed experts position `p` of `m` runs: intermediate positions may be truncated. -/
def expertsAt (m p : ℕ) : UInt32 :=
  if D.o.approxK ≠ 0 ∧ 2 < m ∧ 1 ≤ p ∧ p < m - 1 ∧ D.o.approxK < D.hp.nUsed then D.o.approxK
  else D.hp.nUsed

/-- Expert slot `s` of one position. -/
def addExpert (wge wue wde : WTensor) (rowsz : UInt32) (xf de ids : Loc) (deps : List ℕ) (s : ℕ) :
    Build ℕ := do
  let ge ← slotAlloc D.hp.nFfExp
  let ue ← slotAlloc D.hp.nFfExp
  let tGe ← addDot D.o wge xf ge deps rowsz (some (ids.add s))
  let tUe ← addDot D.o wue xf ue deps rowsz (some (ids.add s))
  let he ← bufAlloc D.hp.nFfExp
  let tHq8 ← addSiluQ8 ge ue he D.hp.nFfExp [tGe, tUe]
  addDot D.o wde he (de.add (s * D.hp.nEmbd.toNat)) [tHq8] rowsz (some (ids.add s))

/-- The routed experts of one position: their outputs, and the id that covers them. -/
def addExperts (wge wue wde : WTensor) (rowsz : UInt32) (m : ℕ) (i : FfnIn) (ids : Loc)
    (tRt p : ℕ) : Build (ℕ × Loc) := do
  let de ← slotAlloc (D.hp.nUsed * D.hp.nEmbd)
  let downs ← (List.range (expertsAt D m p).toNat).mapM
    (addExpert D wge wue wde rowsz (i.xf.col p) de ids [i.fq8 p, tRt])
  let sig ← fanIn downs
  pure (sig, de)

/-- What the experts of a position wait on: its router, or with the barrier all routers. -/
def expertGate (m : ℕ) (tRt : ℕ → ℕ) : Build (ℕ → ℕ) :=
  if D.o.ffnBarrier then do
    let sig ← fanIn ((List.range m).map tRt)
    pure fun _ => sig
  else pure tRt

def ffnMoe (l : UInt32) (m : ℕ) (rowsz : UInt32) (i : FfnIn) (xo : Cols) : Build (ℕ → ℕ) := do
  let wge ← layerTensor D l .ffnGateExps
  let wue ← layerTensor D l .ffnUpExps
  let wde ← layerTensor D l .ffnDownExps
  let rt ← positions m (addRouter D l rowsz i)
  let gate ← expertGate D m fun p => (rt p).tRt
  let rdown ← positions m fun p => addExperts D wge wue wde rowsz m i (rt p).ids (gate p) p
  let wgs ← layerTensor D l .ffnGateShexp
  let gs ← slotAllocCols wgs.rows m
  let us ← slotAllocCols wgs.rows m
  let hs ← bufAllocCols wgs.rows m
  let ds ← slotAllocCols D.hp.nEmbd m
  let sds ← gateUpDown D .ffnGateShexp .ffnUpShexp .ffnDownShexp l m rowsz wgs.rows i gs us hs ds
  positions m fun p =>
    let ku := expertsAt D m p
    addAuxOp .WMERGE (.wmerge
      { parts := (rdown p).2, gates := some (rt p).gate, add1 := some (i.x2.col p)
        add2 := some (ds.col p), y := xo.col p, scale := 0x3f800000, nParts := ku.toNat
        n := D.hp.nEmbd.toNat
        nFull := if D.o.approxRenorm ∧ ku < D.hp.nUsed then D.hp.nUsed.toNat else 0 })
      [(rdown p).1, sds p, i.tx2 p]

/-! ## The pass -/

def ffn (l : UInt32) (m : ℕ) (rowsz : UInt32) (i : FfnIn) (xo : Cols) : Build (ℕ → ℕ) :=
  if l < D.hp.nDenseLead then ffnDense D l m rowsz i xo else ffnMoe D l m rowsz i xo

/-- One layer: the residual stream it leaves. -/
def layer (m : ℕ) (rowsz : UInt32) (r : Residual) (l : UInt32) : Build Residual := do
  let i ← attention D l m rowsz r
  let xo ← bufAllocCols D.hp.nEmbd m
  let tLo ← ffn D l m rowsz i xo
  pure ⟨xo.col, fun p => some (tLo p)⟩

/-- `x_res_dep` before the first layer. -/
def noTask : ℕ := UInt32.size - 1

/-- Final norm and quant. -/
def finalNorm (m : ℕ) (r : Residual) (xF : Cols) : Build (ℕ → ℕ) :=
  positions m fun p => do
    let w ← tensor D .outputNorm
    let tFn ← addRmsNorm D w (r.x p) (xF.col p) D.hp.nEmbd [(r.dep p).getD noTask]
    addActQ8 tFn (xF.col p) D.hp.nEmbd

/-- The pointers the host keeps of a graph. -/
structure Taps where
  xCur : ℕ → Loc
  logits : ℕ → Option Loc
  xF : Cols

/-- The head: certified argmax reads the final norms, otherwise a dot over all
positions writes the logits.  The ids returned cover the pass. -/
def head (m : ℕ) (headRowsz : UInt32) (xF : Cols) (fq8 : ℕ → ℕ) :
    Build ((ℕ → Option Loc) × List ℕ) :=
  if D.o.hcMode = .on then pure (fun _ => none, (List.range m).map fq8)
  else do
    let V := D.hp.nVocab
    let lg ← slotAlloc (V * .ofNat m)
    let w ← tensor D .output
    let sig ← addDotM D.o w xF ⟨lg, V⟩ m ((List.range m).map fq8) headRowsz
    pure (fun p => some (lg.add (p * V.toNat)), [sig])

/-- Rows of a tile, by batch size. -/
def rowszOf (o : BuildOpts) (m : ℕ) : UInt32 :=
  let rowsz := o.rowszEnv.getD
    (if 7 ≤ m then 768 else if 5 ≤ m then 512 else if 3 ≤ m then 384 else if 2 ≤ m then 256 else 192)
  if rowsz = 0 then 256 else rowsz

def headRowszOf (o : BuildOpts) : UInt32 :=
  let rowsz := o.headRowszEnv.getD 1024
  if rowsz = 0 then 1024 else rowsz

/-- The text of the builder up to `freeze()`. -/
def wire (m : ℕ) : Build Taps := do
  let rowsz := rowszOf D.o m
  let xCur ← positions m fun _ => bufAlloc D.hp.nEmbd
  let r ← (List.range D.hp.nLayer.toNat).foldlM (fun r l => layer D m rowsz r (.ofNat l))
    ⟨xCur, fun _ => none⟩
  let xF ← bufAllocCols D.hp.nEmbd m
  let fq8 ← finalNorm D m r xF
  let (logits, sigs) ← head D m (headRowszOf D.o) xF fq8
  let term ← add { kind := .SIGNAL, affinity := .CPU }
  -- direct edges: a relay would come after the terminal
  sigs.forM fun d => edge d term
  pure ⟨xCur, logits, xF⟩

end Build

/-- One frozen graph with the pointers the host keeps. -/
structure GraphSet where
  g : GraphImpl
  taps : Build.Taps
  slotOff : UInt64
  slotLen : UInt64

/-- `sizeof(Task)`. -/
def taskBytes : UInt64 := 256

def buildGraphM (D : Decoder) (m : ℕ) (mem : DecoderMem) : Except String (GraphSet × DecoderMem) := do
  let maxTasks : UInt32 := 18000 * .ofNat m
  let (mem, _) ← mem.alloc (taskBytes * maxTasks.toUInt64) 128
  let (taps, s) ← CmdProg.exec BuildState.run (Build.wire D m)
    ⟨GraphImpl.create maxTasks, fun _ => none, mem⟩
  let g ← s.g.freeze
  pure (⟨g, taps, mem.slotsUsed, s.mem.slotsUsed - mem.slotsUsed⟩, s.mem)

/-- `1 << 20`. -/
def mib : UInt64 := 1048576

/-- Slots and caches of a decoder, and one graph per batch size. -/
def buildGraphs (hp : HParams) (o : BuildOpts) (weights : TensorName → Option WTensor)
    (maxBatch : ℤ) : Except String (Decoder × List GraphSet) := do
  let MB : ℕ := if maxBatch < 1 then 1 else if 16 < maxBatch then 16 else maxBatch.toNat
  let sumM : UInt64 := .ofNat (MB * (MB + 1) / 2)
  let kcBytes := hp.nLayer.toUInt64 * o.maxKv.toUInt64 * hp.nHead.toUInt64 * hp.dk.toUInt64 * 4
  let vcBytes := hp.nLayer.toUInt64 * o.maxKv.toUInt64 * hp.nHead.toUInt64 * hp.dv.toUInt64 * 4
  let slotBudget := (hp.nLayer.toUInt64 * 80000 + hp.nVocab.toUInt64 + mib) * sumM
  let arena := Arena.create (sumM * 18000 * taskBytes + slotBudget * 4 + kcBytes + vcBytes +
    256 * mib + sumM * (48 * mib))
  let (arena, slots) ← arena.alloc (slotBudget * 4) 128
  let (arena, kcache) ← arena.alloc kcBytes 128
  let (arena, vcache) ← arena.alloc vcBytes 128
  let (arena, pos) ← arena.alloc (.ofNat (64 * ((MB + 15) / 16))) 64
  let D : Decoder := ⟨hp, o, weights, kcache, vcache, pos⟩
  let r ← (List.range MB).foldlM (fun (s : List GraphSet × DecoderMem) i => do
    let (gs, mem) ← buildGraphM D (i + 1) s.2
    pure (s.1 ++ [gs], mem)) ([], ⟨arena, slots, slotBudget, 0⟩)
  pure (D, r.1)

end FastLlm
