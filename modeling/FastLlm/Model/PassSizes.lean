import Mathlib
import FastLlm.Model.PassDots

/-!
# The sizes of a decoder

What the sizes of a model have to be for the buffers of a pass to hold what is written into them: no
width, and no product of widths the builder takes in 32 bits, comes near `2 ^ 32`, and the caches
have fewer than `2 ^ 64` bytes.  Then the tensors of a consistent decoder can be cut into tiles of
any number of rows.

## Main definitions

* `Decoder.Sized` — the sizes of a decoder.
* `Decoder.Consistent.tensor` — a tensor of a layer.
-/

namespace FastLlm

/-- The sizes of a decoder; `fs` are the widths of the shared experts. -/
structure Decoder.Sized (D : Decoder) (fs : UInt32 → UInt32) : Prop where
  embd : D.hp.nEmbd.toNat < 2 ^ 27
  query : D.hp.nHead.toNat * D.hp.dk.toNat < 2 ^ 27
  context : D.hp.nHead.toNat * D.hp.dv.toNat < 2 ^ 27
  keyValue : D.hp.nHead.toNat * (D.hp.dNope.toNat + D.hp.dv.toNat) < 2 ^ 27
  latent : D.hp.kvLora.toNat + D.hp.dRope.toNat < 2 ^ 27
  dense : D.hp.nFfDense.toNat < 2 ^ 27
  expert : D.hp.nFfExp.toNat < 2 ^ 27
  shared : ∀ l, (fs l).toNat < 2 ^ 27
  router : D.hp.nExpert.toNat < 2 ^ 27
  used : D.hp.nUsed.toNat < 2 ^ 27
  merged : D.hp.nUsed.toNat * D.hp.nEmbd.toNat < 2 ^ 27
  vocab : D.hp.nVocab.toNat < 2 ^ 27
  heads : 0 < D.hp.nHead.toNat
  head : D.hp.dk.toNat = D.hp.dNope.toNat + D.hp.dRope.toNat
  pairs : 2 ∣ D.hp.dRope.toNat
  kcache : D.hp.nLayer.toNat * D.o.maxKv.toNat * D.hp.nHead.toNat * D.hp.dk.toNat * 4 < 2 ^ 64
  vcache : D.hp.nLayer.toNat * D.o.maxKv.toNat * D.hp.nHead.toNat * D.hp.dv.toNat * 4 < 2 ^ 64
  scratch : D.hp.nHead.toNat * D.o.maxKv.toNat * 4 < 2 ^ 64
  mapped : ∀ n w, D.weights n = some w → w.p.obj = 0

/-! ## Numbers -/

theorem toNat_mul_of_lt {a b : UInt32} (h : a.toNat * b.toNat < 2 ^ 27) :
    (a * b).toNat = a.toNat * b.toNat := by
  rw [UInt32.toNat_mul, Nat.mod_eq_of_lt (by omega)]

theorem toNat_add_of_lt {a b : UInt32} (h : a.toNat + b.toNat < 2 ^ 32) :
    (a + b).toNat = a.toNat + b.toNat := by
  rw [UInt32.toNat_add, Nat.mod_eq_of_lt h]

theorem rowBytes_le (f : Fmt) (cols : ℕ) : rowBytes f cols ≤ 4 * cols := by
  cases f <;> simp only [rowBytes, blkElems, blkBytes] <;> omega

/-- A loop over fewer than `2 ^ 31` rows does not wrap. -/
theorem noWrap_of_lt {rows rowsz : ℕ} (hrows : rows < 2 ^ 31) (hrowsz : rowsz < 2 ^ 32) :
    NoWrap rows rowsz := by
  intro k hk
  rw [Nat.succ_mul]
  rcases Nat.eq_zero_or_pos k with rfl | hpos
  · omega
  · have := Nat.le_mul_of_pos_left rowsz hpos
    omega

namespace Decoder
variable {D : Decoder} {fs : UInt32 → UInt32} {l : UInt32} {c : LayerTensor} {w : WTensor}
  {rowsz : UInt32}

namespace Sized
variable (hS : D.Sized fs)
include hS

theorem toNat_query : (D.hp.nHead * D.hp.dk).toNat = D.hp.nHead.toNat * D.hp.dk.toNat :=
  toNat_mul_of_lt hS.query

theorem toNat_context : (D.hp.nHead * D.hp.dv).toNat = D.hp.nHead.toNat * D.hp.dv.toNat :=
  toNat_mul_of_lt hS.context

theorem toNat_latent : (D.hp.kvLora + D.hp.dRope).toNat = D.hp.kvLora.toNat + D.hp.dRope.toNat :=
  toNat_add_of_lt (by have := hS.latent; omega)

theorem toNat_keyValue : (D.hp.nHead * (D.hp.dNope + D.hp.dv)).toNat =
    D.hp.nHead.toNat * (D.hp.dNope.toNat + D.hp.dv.toNat) := by
  have h := hS.keyValue
  have hsum : (D.hp.dNope + D.hp.dv).toNat = D.hp.dNope.toNat + D.hp.dv.toNat := by
    apply toNat_add_of_lt
    have := Nat.le_mul_of_pos_left (D.hp.dNope.toNat + D.hp.dv.toNat) hS.heads
    omega
  rw [toNat_mul_of_lt (by rwa [hsum]), hsum]

theorem shape_lt : (D.hp.shape (fs l) c).1.toNat < 2 ^ 27 ∧
    (D.hp.shape (fs l) c).2.toNat < 2 ^ 27 := by
  have hone : (1 : UInt32).toNat < 2 ^ 27 := by decide
  have hlatent := hS.latent
  have hembd := hS.embd
  cases c <;> simp only [HParams.shape, hS.toNat_query, hS.toNat_context, hS.toNat_latent,
    hS.toNat_keyValue]
  case attnNorm | ffnNorm => exact ⟨hone, hembd⟩
  case attnQ => exact ⟨hS.query, hembd⟩
  case attnKvAMqa => exact ⟨hlatent, hembd⟩
  case attnKvANorm => exact ⟨hone, by omega⟩
  case attnKvB => exact ⟨hS.keyValue, by omega⟩
  case attnOutput => exact ⟨hembd, hS.context⟩
  case ffnGate | ffnUp => exact ⟨hS.dense, hembd⟩
  case ffnDown => exact ⟨hembd, hS.dense⟩
  case ffnGateInp => exact ⟨hS.router, hembd⟩
  case ffnGateExps | ffnUpExps => exact ⟨hS.expert, hembd⟩
  case ffnDownExps => exact ⟨hembd, hS.expert⟩
  case ffnGateShexp | ffnUpShexp => exact ⟨hS.shared l, hembd⟩
  case ffnDownShexp => exact ⟨hembd, hS.shared l⟩

theorem cut {n : TensorName} (hw : D.weights n = some w) (hload : w.Loaded) (hrows : w.rows.toNat < 2 ^ 27)
    (hcols : w.cols.toNat < 2 ^ 27) : w.Cut rowsz where
  obj := hS.mapped _ w hw
  loaded := hload
  bytes := by
    have hle : w.rowBytes.toNat ≤ 4 * w.cols.toNat := hload.rowBytes_eq ▸ rowBytes_le _ _
    exact (Nat.mul_le_mul hrows.le (hle.trans (Nat.mul_le_mul_left 4 hcols.le))).trans_lt
      (by decide)
  noWrap := noWrap_of_lt (by omega) rowsz.toNat_lt

end Sized

/-- A tensor that layer `l` reads. -/
theorem Consistent.tensor (hC : D.Consistent fs) (hS : D.Sized fs) (hl : l < D.hp.nLayer)
    (hc : c ∈ D.layerTensors l) (hw : D.weights (.blk l c) = some w) :
    w.Cut rowsz ∧ w.rows = (D.hp.shape (fs l) c).1 ∧ w.cols = (D.hp.shape (fs l) c).2 := by
  obtain ⟨w', hw', hload, hshape, -⟩ := hC.blk l hl c hc
  obtain rfl : w = w' := Option.some.inj (hw.symm.trans hw')
  obtain ⟨hrows, hcols⟩ := Prod.mk.inj hshape
  obtain ⟨h1, h2⟩ := hS.shape_lt (l := l) (c := c)
  exact ⟨hS.cut hw hload (hrows ▸ h1) (hcols ▸ h2), hrows, hcols⟩

end Decoder
end FastLlm
