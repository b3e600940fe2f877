import FastLlm.Model.BuildGraph

/-!
# Tensor shapes

The builder reads the rows and columns of a tile from the tensor and the sizes of its
buffers from the hyper-parameters.  The two agree when every tensor a layer reads is
there with the shape its name calls for.

## Main definitions

* `WTensor.Loaded` — what `load_tensor` sets.
* `HParams.shape` — the rows and columns a name calls for.
* `Decoder.Consistent`, `Decoder.NonEmpty` — the decoders a build is made for.
-/

namespace FastLlm

/-- The byte sizes of a tensor, none of which wraps. -/
structure WTensor.Loaded (w : WTensor) : Prop where
  blocks : w.cols.toNat % blkElems w.fmt = 0
  rowBytes_eq : w.rowBytes.toNat = FastLlm.rowBytes w.fmt w.cols.toNat
  estride_eq : w.estride.toNat =
    if 1 < w.nexp then w.rows.toNat * FastLlm.rowBytes w.fmt w.cols.toNat else 0

namespace LayerTensor

def common : List LayerTensor :=
  [attnNorm, attnQ, attnKvAMqa, attnKvANorm, attnKvB, attnOutput, ffnNorm]

def dense : List LayerTensor := [ffnGate, ffnUp, ffnDown]

def moe : List LayerTensor :=
  [ffnGateInp, ffnGateExps, ffnUpExps, ffnDownExps, ffnGateShexp, ffnUpShexp, ffnDownShexp]

/-- One matrix per expert. -/
def isExps (c : LayerTensor) : Bool := c = ffnGateExps ∨ c = ffnUpExps ∨ c = ffnDownExps

end LayerTensor

/-- Rows and columns of a layer's tensor; `fs` is the width of the shared expert. -/
def HParams.shape (h : HParams) (fs : UInt32) : LayerTensor → UInt32 × UInt32
  | .attnNorm | .ffnNorm => (1, h.nEmbd)
  | .attnQ => (h.nHead * h.dk, h.nEmbd)
  | .attnKvAMqa => (h.kvLora + h.dRope, h.nEmbd)
  | .attnKvANorm => (1, h.kvLora)
  | .attnKvB => (h.nHead * (h.dNope + h.dv), h.kvLora)
  | .attnOutput => (h.nEmbd, h.nHead * h.dv)
  | .ffnGate | .ffnUp => (h.nFfDense, h.nEmbd)
  | .ffnDown => (h.nEmbd, h.nFfDense)
  | .ffnGateInp => (h.nExpert, h.nEmbd)
  | .ffnGateExps | .ffnUpExps => (h.nFfExp, h.nEmbd)
  | .ffnDownExps => (h.nEmbd, h.nFfExp)
  | .ffnGateShexp | .ffnUpShexp => (fs, h.nEmbd)
  | .ffnDownShexp => (h.nEmbd, fs)

namespace Decoder
variable (D : Decoder)

/-- The tensors layer `l` reads. -/
def layerTensors (l : UInt32) : List LayerTensor :=
  LayerTensor.common ++ if l < D.hp.nDenseLead then LayerTensor.dense else LayerTensor.moe

/-- Every tensor a build reads is there, with the shape its name calls for. -/
structure Consistent (fs : UInt32 → UInt32) : Prop where
  blk : ∀ l < D.hp.nLayer, ∀ c ∈ D.layerTensors l, ∃ w, D.weights (.blk l c) = some w ∧
    w.Loaded ∧ (w.rows, w.cols) = D.hp.shape (fs l) c ∧
    w.nexp = if c.isExps then D.hp.nExpert else 1
  outputNorm : ∃ w, D.weights .outputNorm = some w ∧ w.Loaded ∧
    w.rows = 1 ∧ w.cols = D.hp.nEmbd
  output : ∃ w, D.weights .output = some w ∧ w.Loaded ∧
    w.rows = D.hp.nVocab ∧ w.cols = D.hp.nEmbd ∧ w.nexp = 1

/-- No tensor is empty. -/
def NonEmpty : Prop := ∀ n w, D.weights n = some w → w.rows ≠ 0 ∧ w.cols ≠ 0

end Decoder

/-- A row of whole blocks takes some bytes. -/
theorem WTensor.Loaded.rowBytes_pos {w : WTensor} (h : w.Loaded) (hc : w.cols ≠ 0) :
    0 < FastLlm.rowBytes w.fmt w.cols.toNat := by
  have hcols : 0 < w.cols.toNat := by
    rw [Nat.pos_iff_ne_zero]
    intro hz
    exact hc (UInt32.toNat_inj.mp hz)
  have hle : blkElems w.fmt ≤ w.cols.toNat := Nat.le_of_dvd hcols (Nat.dvd_of_mod_eq_zero h.blocks)
  have hbytes : 0 < blkBytes w.fmt := by cases w.fmt <;> decide
  exact Nat.mul_pos (Nat.div_pos hle (blkElems_pos w.fmt)) hbytes

/-- Experts lie apart. -/
theorem WTensor.Loaded.estride_ne {w : WTensor} (h : w.Loaded) (hr : w.rows ≠ 0) (hc : w.cols ≠ 0)
    (hexp : 1 < w.nexp) : w.estride.toNat ≠ 0 := by
  have hrows : w.rows.toNat ≠ 0 := by
    intro hz
    exact hr (UInt32.toNat_inj.mp hz)
  rw [h.estride_eq, if_pos hexp]
  exact Nat.mul_ne_zero hrows (h.rowBytes_pos hc).ne'

end FastLlm
