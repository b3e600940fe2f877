import FastLlm.Lib.MemProg
import FastLlm.Runtime.Quants

/-!
# The decode operations

Memory is made of 32-bit words, addressed by an allocation and an offset in it; a
float is its bit pattern and the operations on floats are parameters.  Every
operation is a program over this memory, so that its accesses, and where they fall,
are those of the C++ loops.

## Main definitions

* `Loc`, `Word`, `Exec` — locations, contents, programs.
* `FloatOps` — the uninterpreted operations.
* `opRmsnorm`, `opAdd2`, `opRopeDs2`, `opKvAppend`, `opAttnHead`, `opRouterSel`,
  `opSiluMul`, `opWmerge` — the operations on their parameter blocks.
-/

namespace FastLlm

/-- A word of an allocation; also a pointer to float. -/
structure Loc where
  obj : ℕ
  off : ℕ
  deriving DecidableEq, Repr

/-- Pointer arithmetic on floats. -/
def Loc.add (p : Loc) (n : ℕ) : Loc := ⟨p.obj, p.off + n⟩

@[simp] theorem Loc.obj_add (p : Loc) (n : ℕ) : (p.add n).obj = p.obj := rfl
@[simp] theorem Loc.off_add (p : Loc) (n : ℕ) : (p.add n).off = p.off + n := rfl
@[simp] theorem Loc.add_zero (p : Loc) : p.add 0 = p := rfl
@[simp] theorem Loc.add_add (p : Loc) (a b : ℕ) : (p.add a).add b = p.add (a + b) := by
  simp only [Loc.add, Nat.add_assoc]

/-- A pointer to bytes. -/
structure BytePtr where
  obj : ℕ
  byte : ℕ
  deriving DecidableEq, Repr

def BytePtr.add (p : BytePtr) (n : ℕ) : BytePtr := ⟨p.obj, p.byte + n⟩

abbrev Word := UInt32

/-- A program over the memory of the arena. -/
abbrev Exec := MemProg Loc Word

/-- Float arithmetic on bit patterns, the row dot product of each format, and the two
activation quantizers.  All are uninterpreted. -/
structure FloatOps where
  /-- The literal `n * 10 ^ e`. -/
  lit : ℤ → ℤ → Word
  pi : Word
  ofU32 : Word → Word
  ofI32 : Word → Word
  add : Word → Word → Word
  sub : Word → Word → Word
  mul : Word → Word → Word
  div : Word → Word → Word
  neg : Word → Word
  fma : Word → Word → Word → Word
  sqrt : Word → Word
  exp : Word → Word
  log : Word → Word
  cos : Word → Word
  sin : Word → Word
  pow : Word → Word → Word
  floor : Word → Word
  ceil : Word → Word
  fmin : Word → Word → Word
  fmax : Word → Word → Word
  lt : Word → Word → Bool
  eq : Word → Word → Bool
  /-- `fl_dot_row_any`: the bytes of the weight row and the activation column. -/
  dotRow : Fmt → List UInt8 → List Word → Word
  /-- `fl_quantize_q8_1_block`: the nine words of the block, by index. -/
  quantQ81 : List Word → ℕ → Word
  /-- `fl_quantize_q8_K_block`: the 73 words of the block, by index. -/
  quantQ8K : List Word → ℕ → Word

/-- All operations constant, for examples in which no float matters. -/
instance : Inhabited FloatOps where
  default :=
    { lit := fun _ _ => 0, pi := 0, ofU32 := id, ofI32 := id, add := fun _ _ => 0
      sub := fun _ _ => 0, mul := fun _ _ => 0, div := fun _ _ => 0, neg := id
      fma := fun _ _ _ => 0, sqrt := id, exp := id, log := id, cos := id, sin := id
      pow := fun _ _ => 0, floor := id, ceil := id, fmin := fun _ _ => 0
      fmax := fun _ _ => 0, lt := fun _ _ => false, eq := fun _ _ => false
      dotRow := fun _ _ _ => 0, quantQ81 := fun _ _ => 0, quantQ8K := fun _ _ => 0 }

/-- Words `p[0 .. n)`. -/
def readWords (p : Loc) : ℕ → Exec (List Word)
  | 0 => pure []
  | n + 1 => do
      let ws ← readWords p n
      let w ← MemProg.get (p.add n)
      pure (ws ++ [w])

/-- Byte `b` of the little-endian word it lies in. -/
def wordByte (w : Word) (b : ℕ) : UInt8 := (w >>> UInt32.ofNat (8 * (b % 4))).toUInt8

/-- Bytes `p[0 .. n)`. -/
def readBytes (p : BytePtr) : ℕ → Exec (List UInt8)
  | 0 => pure []
  | n + 1 => do
      let bs ← readBytes p n
      let w ← MemProg.get ⟨p.obj, (p.byte + n) / 4⟩
      pure (bs ++ [wordByte w (p.byte + n)])

/-! ## Parameter blocks -/

structure RmsNormP where
  wnorm : Loc
  x : Loc
  y : Loc
  eps : Word
  n : ℕ
  deriving DecidableEq, Repr

structure Add2P where
  a : Loc
  b : Loc
  y : Loc
  n : ℕ
  deriving DecidableEq, Repr

structure RopeP where
  buf : Loc
  pos : Loc
  nHead : ℕ
  headStride : ℕ
  rotOff : ℕ
  nRot : ℕ
  freqBase : Word
  freqScale : Word
  extFactor : Word
  attnFactor : Word
  betaFast : Word
  betaSlow : Word
  nCtxOrig : Word
  deriving DecidableEq, Repr

structure KvAppendP where
  kvb : Loc
  kpe : Loc
  kcache : Loc
  vcache : Loc
  pos : Loc
  nHead : ℕ
  dNope : ℕ
  dRope : ℕ
  dV : ℕ
  deriving DecidableEq, Repr

structure AttnHeadP where
  q : Loc
  kcache : Loc
  vcache : Loc
  scratch : Loc
  out : Loc
  pos : Loc
  scale : Word
  head : ℕ
  nHead : ℕ
  dk : ℕ
  dv : ℕ
  deriving DecidableEq, Repr

structure RouterP where
  logits : Loc
  ids : Loc
  gates : Loc
  nExpert : ℕ
  topK : ℕ
  norm : Bool
  scale : Word
  deriving DecidableEq, Repr

structure SiluMulP where
  gate : Loc
  up : Loc
  h : Loc
  n : ℕ
  deriving DecidableEq, Repr

structure WmergeP where
  parts : Loc
  gates : Option Loc
  add1 : Option Loc
  add2 : Option Loc
  y : Loc
  scale : Word
  nParts : ℕ
  n : ℕ
  nFull : ℕ
  deriving DecidableEq, Repr

/-! ## Operations -/

section Ops
variable (E : FloatOps)
open MemProg (get put loop forRange)

def opRmsnorm (p : RmsNormP) : Exec Unit := do
  let ss ← loop (fun i ss => do
    let x ← get (p.x.add i)
    pure (E.add ss (E.mul x x))) p.n (E.lit 0 0)
  let s := E.div (E.lit 1 0) (E.sqrt (E.add (E.div ss (E.ofU32 (.ofNat p.n))) p.eps))
  forRange p.n fun i => do
    let x ← get (p.x.add i)
    let w ← get (p.wnorm.add i)
    put (p.y.add i) (E.mul (E.mul x s) w)

def opAdd2 (p : Add2P) : Exec Unit :=
  forRange p.n fun i => do
    let a ← get (p.a.add i)
    let b ← get (p.b.add i)
    put (p.y.add i) (E.add a b)

def ropeCorrDim (nDims nCtxOrig beta base : Word) : Word :=
  E.div (E.mul nDims (E.log (E.div nCtxOrig (E.mul (E.mul beta (E.lit 2 0)) E.pi))))
    (E.mul (E.lit 2 0) (E.log base))

/-- Correction range of the rotation, clamped to the rotated span. -/
def ropeCorr (p : RopeP) : Word × Word :=
  let d := E.ofU32 (.ofNat p.nRot)
  let lo := E.floor (ropeCorrDim E d p.nCtxOrig p.betaFast p.freqBase)
  let hi := E.ceil (ropeCorrDim E d p.nCtxOrig p.betaSlow p.freqBase)
  let top := E.ofU32 (.ofNat p.nRot - 1)
  (if E.lt lo (E.lit 0 0) then E.lit 0 0 else lo, if E.lt top hi then top else hi)

/-- Angle and magnitude of pair `j` of a head at running angle `theta`. -/
def ropeAngle (p : RopeP) (j : ℕ) (theta : Word) : Word × Word :=
  let interp := E.mul p.freqScale theta
  if E.eq p.extFactor (E.lit 0 0) then
    (interp, p.attnFactor)
  else
    let corr := ropeCorr E p
    let ramp := E.div (E.sub (E.ofU32 (.ofNat j)) corr.1)
      (E.fmax (E.lit 1 (-3)) (E.sub corr.2 corr.1))
    let ramp := E.sub (E.lit 1 0) (E.fmin (E.lit 1 0) (E.fmax (E.lit 0 0) ramp))
    let mix := E.mul ramp p.extFactor
    (E.add (E.mul interp (E.sub (E.lit 1 0) mix)) (E.mul theta mix),
      E.mul p.attnFactor (E.add (E.lit 1 0)
        (E.mul (E.lit 1 (-1)) (E.log (E.div (E.lit 1 0) p.freqScale)))))

/-- Rotates adjacent pairs; an odd span makes the last pair reach one element beyond it. -/
def opRopeDs2 (p : RopeP) : Exec Unit := do
  let thetaScale := E.pow p.freqBase (E.div (E.neg (E.lit 2 0)) (E.ofU32 (.ofNat p.nRot)))
  let w ← get p.pos
  let pos := E.ofI32 w
  forRange p.nHead fun h => do
    let v := p.buf.add (h * p.headStride + p.rotOff)
    let _ ← loop (fun j theta => do
      let (th, mscale) := ropeAngle E p j theta
      let c := E.mul (E.cos th) mscale
      let s := E.mul (E.sin th) mscale
      let x0 ← get (v.add (2 * j))
      let x1 ← get (v.add (2 * j + 1))
      put (v.add (2 * j)) (E.sub (E.mul x0 c) (E.mul x1 s))
      put (v.add (2 * j + 1)) (E.add (E.mul x0 s) (E.mul x1 c))
      pure (E.mul theta thetaScale)) ((p.nRot + 1) / 2) pos
    pure ()

/-- Copy one word. -/
def copyWord (src dst : Loc) : Exec Unit := do
  let v ← get src
  put dst v

def opKvAppend (p : KvAppendP) : Exec Unit := do
  let w ← get p.pos
  let pos := w.toNat
  let dk := p.dNope + p.dRope
  let krow := p.kcache.add (pos * p.nHead * dk)
  let vrow := p.vcache.add (pos * p.nHead * p.dV)
  forRange p.nHead fun h => do
    let src := p.kvb.add (h * (p.dNope + p.dV))
    forRange p.dNope fun d => copyWord (src.add d) (krow.add (h * dk + d))
    forRange p.dRope fun d => copyWord (p.kpe.add d) (krow.add (h * dk + p.dNope + d))
    forRange p.dV fun d => copyWord (src.add (p.dNope + d)) (vrow.add (h * p.dV + d))

/-- Sum of the eight lanes, left to right. -/
def foldLanes (s : List Word) : Word :=
  (s.drop 1).foldl E.add (s.getD 0 0)

/-- Score of one key row: eight striped lanes, or in order for odd widths. -/
def attnScore (striped : Bool) (q k : Loc) (dk : ℕ) : Exec Word :=
  if striped then do
    let s ← loop (fun d s => do
      let x ← get (q.add d)
      let y ← get (k.add d)
      pure (s.set (d % 8) (E.fma x y (s.getD (d % 8) 0)))) dk (List.replicate 8 (E.lit 0 0))
    pure (foldLanes E s)
  else
    loop (fun d acc => do
      let x ← get (q.add d)
      let y ← get (k.add d)
      pure (E.add acc (E.mul x y))) dk (E.lit 0 0)

def opAttnHead (p : AttnHeadP) : Exec Unit := do
  let w ← get p.pos
  let n := (w + 1).toNat
  let q := p.q.add (p.head * p.dk)
  let striped : Bool := p.dk % 8 = 0 ∧ p.dv % 4 = 0
  let mx ← loop (fun j mx => do
    let k := p.kcache.add ((j * p.nHead + p.head) * p.dk)
    let acc ← attnScore E striped q k p.dk
    let acc := E.mul acc p.scale
    put (p.scratch.add j) acc
    pure (if E.lt mx acc then acc else mx)) n (E.lit (-1) 30)
  let sum ← loop (fun j sum => do
    let s ← get (p.scratch.add j)
    let e := E.exp (E.sub s mx)
    put (p.scratch.add j) e
    pure (E.add sum e)) n (E.lit 0 0)
  let inv := E.div (E.lit 1 0) sum
  let o := p.out.add (p.head * p.dv)
  forRange p.dv fun d => put (o.add d) (E.lit 0 0)
  forRange n fun j => do
    let s ← get (p.scratch.add j)
    let w := E.mul s inv
    let v := p.vcache.add ((j * p.nHead + p.head) * p.dv)
    forRange p.dv fun d => do
      let x ← get (v.add d)
      let a ← get (o.add d)
      put (o.add d) (if striped then E.fma w x a else E.add a (E.mul w x))

/-- Softmax over all logits. -/
def routerWeights (p : RouterP) : Exec (List Word) := do
  let mx ← loop (fun i mx => do
    let l ← get (p.logits.add i)
    pure (if E.lt mx l then l else mx)) p.nExpert (E.lit (-1) 30)
  let (w, sum) ← loop (fun i (ws : List Word × Word) => do
    let l ← get (p.logits.add i)
    let e := E.exp (E.sub l mx)
    pure (ws.1 ++ [e], E.add ws.2 e)) p.nExpert ([], E.lit 0 0)
  pure (w.map fun x => E.div x sum)

/-- Is expert `i` among the first `k` selected ids? -/
def routerTaken (p : RouterP) (k i : ℕ) : Exec Bool :=
  loop (fun k2 taken =>
    if taken then pure true
    else do
      let id ← get (p.ids.add k2)
      pure (id = .ofNat i)) k false

def opRouterSel (p : RouterP) : Exec Unit := do
  let w ← routerWeights E p
  let tsum ← loop (fun k tsum => do
    let (best, bw) ← loop (fun i (b : ℕ × Word) => do
      let taken ← routerTaken p k i
      let wi := w.getD i 0
      pure (if !taken && E.lt b.2 wi then (i, wi) else b)) p.nExpert (0, E.lit (-1) 0)
    put (p.ids.add k) (.ofNat best)
    put (p.gates.add k) bw
    pure (E.add tsum bw)) p.topK (E.lit 0 0)
  forRange p.topK fun k => do
    if p.norm then do
      let g ← get (p.gates.add k)
      put (p.gates.add k) (E.div g tsum)
    let g ← get (p.gates.add k)
    put (p.gates.add k) (E.mul g p.scale)

def opSiluMul (p : SiluMulP) : Exec Unit :=
  forRange p.n fun i => do
    let g ← get (p.gate.add i)
    let u ← get (p.up.add i)
    put (p.h.add i) (E.mul (E.div g (E.add (E.lit 1 0) (E.exp (E.neg g)))) u)

/-- Sum of `n` gates. -/
def sumGates (g : Loc) (n : ℕ) : Exec Word :=
  loop (fun q s => do
    let x ← get (g.add q)
    pure (E.add s x)) n (E.lit 0 0)

/-- Rescale of the surviving gates; exactly one when nothing was truncated. -/
def wmergeScale (p : WmergeP) : Exec Word :=
  match p.gates with
  | some g =>
      if p.nParts < p.nFull then do
        let s ← sumGates E g p.nParts
        let sf ← sumGates E g p.nFull
        pure (if E.lt (E.lit 0 0) s then E.div sf s else E.lit 1 0)
      else pure (E.lit 1 0)
  | none => pure (E.lit 1 0)

def opWmerge (p : WmergeP) : Exec Unit := do
  let gsc ← wmergeScale E p
  forRange p.n fun i => do
    let acc ← loop (fun q acc => do
      let g ← match p.gates with
        | some g => do
            let x ← get (g.add q)
            pure (E.mul gsc x)
        | none => pure (E.lit 1 0)
      let x ← get (p.parts.add (q * p.n + i))
      pure (E.add acc (E.mul g x))) p.nParts (E.lit 0 0)
    let acc := E.mul acc p.scale
    let acc ← match p.add1 with
      | some a => do
          let x ← get (a.add i)
          pure (E.add acc x)
      | none => pure acc
    let acc ← match p.add2 with
      | some a => do
          let x ← get (a.add i)
          pure (E.add acc x)
      | none => pure acc
    put (p.y.add i) acc

end Ops
end FastLlm
