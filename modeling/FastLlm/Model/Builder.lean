import FastLlm.Lib.CmdProg
import FastLlm.Runtime.Arena
import FastLlm.Runtime.Graph

/-!
# The graph helpers of the decoder

`build_graph_m` fills a graph through a few helpers.  The text of the builder is a
program over the commands below; here they are given the effect they have on the graph,
the ports and the memory of the decoder.  The central one is `dep_edge`, which keeps
the fan-out of every task legal by growing a tree of relay signals under a producer
that runs out of consumer slots.

## Main definitions

* `HParams`, `WTensor`, `TensorName`, `BuildOpts`, `Decoder` — what a build reads.
* `Cmd`, `Build` — the commands and the programs over them.
* `DecoderMem`, `BuildState`, `BuildState.run` — the state and the effect of a command.
* `BuildState.depEdge` — ported edges.
* `fanIn`, `addOp`, `addDot`, `addDotM`, `stageDot` — the helpers above the commands.
-/

namespace FastLlm

/-! ## What a build reads -/

structure HParams where
  nEmbd : UInt32
  nLayer : UInt32
  nHead : UInt32
  nVocab : UInt32
  nDenseLead : UInt32
  nFfDense : UInt32
  nFfExp : UInt32
  nExpert : UInt32
  nUsed : UInt32
  kvLora : UInt32
  dk : UInt32
  dv : UInt32
  dRope : UInt32
  dNope : UInt32
  rmsEps : Word
  expertScale : Word
  expertNorm : UInt32
  freqBase : Word
  freqScale : Word
  extFactor : Word
  attnFactor : Word
  betaFast : Word
  betaSlow : Word
  nCtxOrig : Word
  kqScale : Word
  deriving DecidableEq, Repr

/-- One weight matrix, or one per expert. -/
structure WTensor where
  p : BytePtr
  fmt : Fmt
  rows : UInt32
  cols : UInt32
  rowBytes : UInt64
  estride : UInt64
  nexp : UInt32
  deriving DecidableEq, Repr

inductive LayerTensor
  | attnNorm | attnQ | attnKvAMqa | attnKvANorm | attnKvB | attnOutput | ffnNorm
  | ffnGate | ffnUp | ffnDown
  | ffnGateInp | ffnGateExps | ffnUpExps | ffnDownExps | ffnGateShexp | ffnUpShexp | ffnDownShexp
  deriving DecidableEq, Repr

/-- The name inside `blk.%u.%s.weight`. -/
def LayerTensor.str : LayerTensor → String
  | attnNorm => "attn_norm"
  | attnQ => "attn_q"
  | attnKvAMqa => "attn_kv_a_mqa"
  | attnKvANorm => "attn_kv_a_norm"
  | attnKvB => "attn_kv_b"
  | attnOutput => "attn_output"
  | ffnNorm => "ffn_norm"
  | ffnGate => "ffn_gate"
  | ffnUp => "ffn_up"
  | ffnDown => "ffn_down"
  | ffnGateInp => "ffn_gate_inp"
  | ffnGateExps => "ffn_gate_exps"
  | ffnUpExps => "ffn_up_exps"
  | ffnDownExps => "ffn_down_exps"
  | ffnGateShexp => "ffn_gate_shexp"
  | ffnUpShexp => "ffn_up_shexp"
  | ffnDownShexp => "ffn_down_shexp"

inductive TensorName
  | tokenEmbd
  | outputNorm
  | output
  | blk (l : UInt32) (c : LayerTensor)
  deriving DecidableEq, Repr

def TensorName.str : TensorName → String
  | tokenEmbd => "token_embd.weight"
  | outputNorm => "output_norm.weight"
  | output => "output.weight"
  | blk l c => "blk." ++ toString l ++ "." ++ c.str ++ ".weight"

/-- `FASTLLM_MULTICOL`. -/
inductive McMode
  | off | multi | cpu
  deriving DecidableEq, Repr

/-- `hc_mode_`. -/
inductive HcMode
  | off | on | audit
  deriving DecidableEq, Repr

/-- The options and environment switches that shape a graph. -/
structure BuildOpts where
  affinity : ℕ := 3
  maxKv : UInt32 := 512
  mcMode : McMode := .off
  ffnBarrier : Bool := false
  approxK : UInt32 := 0
  approxRenorm : Bool := false
  hcMode : HcMode := .off
  rowszEnv : Option UInt32 := none
  headRowszEnv : Option UInt32 := none
  deriving DecidableEq, Repr

/-- The decoder as a build finds it. -/
structure Decoder where
  hp : HParams
  o : BuildOpts
  weights : TensorName → Option WTensor
  kcache : Loc
  vcache : Loc
  pos : Loc

/-! ## The commands -/

inductive Cmd
  | add (t : TaskParams)
  | depEdge (p c : ℕ)
  | edge (p c : ℕ)
  | write (i : ℕ) (f : TaskParams → TaskParams)
  | slotAlloc (n : UInt32)
  | alloc (bytes align : UInt64)
  | die (msg : String)

/-- What a command answers. -/
def Cmd.Res : Cmd → Type
  | add _ => ℕ
  | depEdge _ _ | edge _ _ | write _ _ => Unit
  | slotAlloc _ | alloc _ _ => Loc
  | die _ => Empty

/-- A piece of the builder's text. -/
abbrev Build := CmdProg Cmd Cmd.Res

namespace Build
open CmdProg (issue)

def add (t : TaskParams) : Build ℕ := issue (Cmd.add t)
def depEdge (p c : ℕ) : Build Unit := issue (Cmd.depEdge p c)
def edge (p c : ℕ) : Build Unit := issue (Cmd.edge p c)
def write (i : ℕ) (f : TaskParams → TaskParams) : Build Unit := issue (Cmd.write i f)
def slotAlloc (n : UInt32) : Build Loc := issue (Cmd.slotAlloc n)
def alloc (bytes align : UInt64) : Build Loc := issue (Cmd.alloc bytes align)
def die {α : Type} (msg : String) : Build α := issue (Cmd.die msg) >>= Empty.elim

end Build

/-! ## The state -/

/-- The memory of the decoder: the arena, and the region whose slots are zeroed in
every run. -/
structure DecoderMem where
  arena : Arena
  slots : Loc
  slotsFloats : UInt64
  slotsUsed : UInt64
  deriving DecidableEq, Repr

namespace DecoderMem

def slotAlloc (s : DecoderMem) (n : UInt32) : Except String (DecoderMem × Loc) :=
  if s.slotsFloats < s.slotsUsed + n.toUInt64 then .error "slots region overflow"
  else .ok ({ s with slotsUsed := s.slotsUsed + n.toUInt64 }, s.slots.add s.slotsUsed.toNat)

def alloc (s : DecoderMem) (bytes align : UInt64) : Except String (DecoderMem × Loc) := do
  let (arena, p) ← s.arena.alloc bytes align
  pure ({ s with arena := arena }, p)

end DecoderMem

/-- Where the relay tree of a producer grows. -/
structure Port where
  trunk : ℕ
  trunkUsed : ℕ
  leaf : ℕ
  leafUsed : ℕ
  deriving DecidableEq, Repr

/-- The graph under construction, its ports and the memory. -/
structure BuildState where
  g : GraphImpl
  ports : ℕ → Option Port
  mem : DecoderMem

/-- The record of `raw_signal()`. -/
def rawSignal : TaskParams := { kind := .SIGNAL, affinity := .CPU }

/-- A new signal under `q`. -/
def addRelay (g : GraphImpl) (q : ℕ) : Except String (GraphImpl × ℕ) := do
  let (g, id) ← g.add rawSignal
  let g ← g.edge q id
  pure (g, id)

/-- The first trunk and leaf of `p`; the trunk uses the reserved slot. -/
def openPort (g : GraphImpl) (p : ℕ) : Except String (GraphImpl × Port) := do
  let (g, trunk) ← addRelay g p
  let (g, leaf) ← addRelay g trunk
  pure (g, ⟨trunk, 1, leaf, 0⟩)

/-- Chain a new trunk when the old one has only its last slot left. -/
def nextTrunk (g : GraphImpl) (po : Port) : Except String (GraphImpl × Port) :=
  if kMaxConsumers - 1 ≤ po.trunkUsed then do
    let (g, nt) ← addRelay g po.trunk
    pure (g, { po with trunk := nt, trunkUsed := 0 })
  else pure (g, po)

/-- Start a new leaf when the old one is full. -/
def nextLeaf (g : GraphImpl) (po : Port) : Except String (GraphImpl × Port) :=
  if kMaxConsumers ≤ po.leafUsed then do
    let (g, po) ← nextTrunk g po
    let (g, leaf) ← addRelay g po.trunk
    pure (g, { po with leaf := leaf, trunkUsed := po.trunkUsed + 1, leafUsed := 0 })
  else pure (g, po)

namespace BuildState

/-- The port of `p`, opened at its first use. -/
def port (s : BuildState) (p : ℕ) : Except String (GraphImpl × Port) :=
  match s.ports p with
  | some po => pure (s.g, po)
  | none => openPort s.g p

/-- The first `kMaxConsumers - 1` consumers attach to the producer, the others to the
leaves of its tree. -/
def depEdge (s : BuildState) (p c : ℕ) : Except String BuildState :=
  if (s.g.cons p).length < kMaxConsumers - 1 then do
    let g ← s.g.edge p c
    pure { s with g := g }
  else do
    let (g, po) ← s.port p
    let (g, po) ← nextLeaf g po
    let g ← g.edge po.leaf c
    pure { s with
      g := g
      ports := Function.update s.ports p (some { po with leafUsed := po.leafUsed + 1 }) }

/-- The effect of a command. -/
def run : (c : Cmd) → BuildState → Except String (c.Res × BuildState)
  | .add t, s => do
      let (g, id) ← s.g.add t
      pure (id, { s with g := g })
  | .depEdge p c, s => do
      let s ← s.depEdge p c
      pure ((), s)
  | .edge p c, s => do
      let g ← s.g.edge p c
      pure ((), { s with g := g })
  | .write i f, s => pure ((), { s with g := s.g.write i f })
  | .slotAlloc n, s => do
      let (mem, p) ← s.mem.slotAlloc n
      pure (p, { s with mem := mem })
  | .alloc bytes align, s => do
      let (mem, p) ← s.mem.alloc bytes align
      pure (p, { s with mem := mem })
  | .die msg, _ => .error msg

end BuildState

/-! ## Memory -/

/-- Columns at a fixed distance, one per position. -/
structure Cols where
  base : Loc
  stride : UInt32
  deriving DecidableEq, Repr

def Cols.col (c : Cols) (p : ℕ) : Loc := c.base.add (p * c.stride.toNat)

namespace Build

/-- Round up to a multiple of 128. -/
def align128 (n : ℕ) : ℕ := (n + 127) / 128 * 128

def bufAlloc (n : UInt32) : Build Loc := alloc (.ofNat (xAllocBytes n.toNat)) 128

def bufAllocCols (n : UInt32) (m : ℕ) : Build Cols := do
  let per := align128 (xAllocBytes n.toNat)
  let base ← alloc (.ofNat (per * m)) 128
  pure ⟨base, .ofNat (per / 4)⟩

def slotAllocCols (n : UInt32) (m : ℕ) : Build Cols := do
  let per := UInt32.ofNat (align128 (n.toNat * 4) / 4)
  let base ← slotAlloc (per * .ofNat m)
  pure ⟨base, per⟩

/-- `sizeof` of a parameter block. -/
def auxBytes : Aux → UInt64
  | .idSlot _ => 4
  | .rmsnorm _ => 32
  | .add2 _ => 32
  | .rope _ => 64
  | .kvAppend _ => 64
  | .attnHead _ => 72
  | .router _ => 40
  | .siluMul _ => 32
  | .wmerge _ => 56

/-- `aux_alloc` and the assignment to the block. -/
def auxAlloc (a : Aux) : Build (Option Aux) := do
  let _ ← alloc (auxBytes a) 64
  pure (some a)

/-! ## Helpers -/

/-- The weight tensors of the decoder, by name. -/
def tensor (D : Decoder) (n : TensorName) : Build WTensor :=
  match D.weights n with
  | some w => pure w
  | none => die ("missing tensor " ++ n.str)

/-- Give a new task its dependencies. -/
def dependOn (id : ℕ) (deps : List ℕ) : Build Unit := deps.forM fun d => depEdge d id

/-- One dependency carrier for a set of producers. -/
def fanIn (producers : List ℕ) : Build ℕ := do
  let sig ← add rawSignal
  dependOn sig producers
  pure sig

def addOp (k : TaskKind) (aux : Option Aux) (deps : List ℕ) : Build ℕ := do
  let id ← add { kind := k, affinity := .CPU, aux := aux }
  dependOn id deps
  pure id

/-- `add_op(ACT_Q8, nullptr, {dep})` and the writes to its record: quantize the column
of `n` floats at `x` into its appendices. -/
def addActQ8 (dep : ℕ) (x : Loc) (n : UInt32) : Build ℕ := do
  let id ← addOp .ACT_Q8 none [dep]
  write id fun t =>
    { t with x := x, y := x.add (xqOf n.toNat / 4), rows := n.toNat / 32, cols := n.toNat }
  pure id

def dotAff (o : BuildOpts) (f : Fmt) : Engine :=
  match o.affinity with
  | 0 => .GPU
  | 1 => .CPU
  | _ => if f = .Q8_0 then .CPU else .GPU

/-- `for (r0 = 0; r0 < rows; r0 += rowsz)` with one task per round.  The counter has
32 bits; a loop that wraps adds tasks until the table is full, which it is after fewer
than `2 ^ 32` rounds. -/
def tileLoop (tile : UInt32 → UInt32 → TaskParams) (rows rowsz : UInt32) (deps : List ℕ) :
    ℕ → UInt32 → List ℕ → Build (List ℕ)
  | 0, _, _ => die "graph capacity exceeded"
  | fuel + 1, r0, tiles =>
      if r0 < rows then do
        let r := if rows - r0 < rowsz then rows - r0 else rowsz
        let id ← add (tile r0 r)
        dependOn id deps
        tileLoop tile rows rowsz deps fuel (r0 + rowsz) (tiles ++ [id])
      else pure tiles

/-- The tiles of a matrix, and the id that covers them. -/
def addTiles (tile : UInt32 → UInt32 → TaskParams) (rows rowsz : UInt32) (deps : List ℕ) :
    Build ℕ := do
  let tiles ← tileLoop tile rows rowsz deps (2 ^ 32) 0 []
  match tiles with
  | [t] => pure t
  | _ => fanIn tiles

/-- The tile of rows `r0 .. r0 + r` of a single-column dot. -/
def dotTile (o : BuildOpts) (w : WTensor) (x y : Loc) (idSlot : Option Loc) (r0 r : UInt32) :
    TaskParams :=
  { kind := if idSlot.isSome then .STREAM_DOT_IDX else .STREAM_DOT
    fmt := w.fmt
    affinity := dotAff o w.fmt
    w := w.p.add (r0.toNat * w.rowBytes.toNat)
    wBytes := (r.toUInt64 * w.rowBytes).toNat
    x := x
    y := y.add r0.toNat
    rows := r.toNat
    cols := w.cols.toNat
    aux := idSlot.map .idSlot
    aux2 := if idSlot.isSome then w.estride.toNat else 0 }

def addDot (o : BuildOpts) (w : WTensor) (x y : Loc) (deps : List ℕ) (rowsz : UInt32)
    (idSlot : Option Loc) : Build ℕ :=
  addTiles (dotTile o w x y idSlot) w.rows rowsz deps

/-- The tile of rows `r0 .. r0 + r` of a dot over `m` columns. -/
def dotTileM (o : BuildOpts) (w : WTensor) (x y : Cols) (m : ℕ) (r0 r : UInt32) : TaskParams :=
  { kind := .STREAM_DOT
    fmt := w.fmt
    affinity := if o.mcMode = .cpu then .CPU else dotAff o w.fmt
    w := w.p.add (r0.toNat * w.rowBytes.toNat)
    wBytes := (r.toUInt64 * w.rowBytes).toNat
    x := x.base
    y := y.base.add r0.toNat
    rows := r.toNat
    cols := w.cols.toNat
    nx := m
    xstride := x.stride.toNat
    ystride := y.stride.toNat }

def addDotM (o : BuildOpts) (w : WTensor) (x y : Cols) (m : ℕ) (deps : List ℕ) (rowsz : UInt32) :
    Build ℕ :=
  if o.mcMode = .off then do
    let sigs ← (List.range m).mapM fun p => addDot o w (x.col p) (y.col p) deps rowsz none
    fanIn sigs
  else if m = 1 then addDot o w x.base y.base deps rowsz none
  else addTiles (dotTileM o w x y m) w.rows rowsz deps

/-- `f` for every position; the results as a vector over the positions. -/
def positions {α : Type} [Inhabited α] (m : ℕ) (f : ℕ → Build α) : Build (ℕ → α) := do
  let r ← (List.range m).mapM f
  pure fun p => r.getD p default

/-- One shared-weight stage over the columns of all positions; the result at `p` is what
the consumers of position `p` depend on. -/
def stageDot (o : BuildOpts) (w : WTensor) (x y : Cols) (m : ℕ) (pdeps : ℕ → ℕ)
    (rowsz : UInt32) : Build (ℕ → ℕ) :=
  if o.mcMode ≠ .off ∧ 1 < m then do
    let id ← addDotM o w x y m ((List.range m).map pdeps) rowsz
    pure fun _ => id
  else
    positions m fun p => addDot o w (x.col p) (y.col p) [pdeps p] rowsz none

end Build
end FastLlm
