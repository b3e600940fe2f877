import Mathlib
import FastLlm.Model.PassAttention

/-!
# The FFN of a dense layer

Gate, up, SiLU and down over all positions, as the dense layers and the shared experts run them, and
the merge of a dense layer.

## Main definitions

* `triple_gateUpDown` — the three projections.
* `triple_ffnDense` — the FFN of a dense layer.
-/

namespace FastLlm
open Assn Build
open TaskModel (Triple)

variable {S : Setting} {fs : UInt32 → UInt32} {m nPast : ℕ} {l : UInt32}

/-- What the FFN reads, behind the quantization of the norm. -/
theorem ffnFinds_le {i : FfnIn} {v : ℕ → List Word} : ffnFinds S l m i v ≤
    ∑ p ∈ Finset.range m, ready [i.tx2 p] (i.x2.col p) (v p) +
      ∑ p ∈ Finset.range m, ready [i.fq8 p] (i.xf.col p)
        (Pass.rmsNorm S.N S.D (Pass.weight S.D (.blk l .ffnNorm)) (v p) S.D.hp.nEmbd.toNat) := by
  rw [ffnFinds, ← Finset.sum_add_distrib]
  exact Finset.sum_le_sum fun p _ => add_le_add_right ready_add_past_le _

/-- `h = silu(gate) * up` and its quantization, behind what both wait for. -/
theorem triple_addSiluQ8 (h : S.Laid) {x y z : Loc} {v u : List Word} {n : UInt32}
    {dx dy deps : List ℕ} (hv : v.length = n.toNat) (hu : u.length = n.toNat) (hdx : dx ⊆ deps)
    (hdy : dy ⊆ deps) :
    S.model.Triple (ready dx x v + ready dy y u + blank z n.toNat S.μ) (addSiluQ8 x y z n deps)
      fun q => ready [q] z (Pass.siluMul S.N v u n.toNat) + past deps [q] := by
  rw [addSiluQ8, blank]
  refine (triple_siluMul h hv hu (@Loc.length_contents z _ S.μ) hdx hdy (List.nil_subset _)).seq
    (K := owned [] (appendix z n.toNat) S.μ) (by rw [← add_assoc]) fun tS => ?_
  set w := Pass.siluMul S.N v u n.toNat
  refine (triple_addActQ8 (S := S) (x := z) (v := w) (Pass.length_siluMul ..)
    (List.Subset.refl [tS])).last (K := past deps [tS]) ?_ fun q => ?_
  · calc ready dx x v + ready dy y u + past deps [tS] + idle [tS] z w +
          owned [] (appendix z n.toNat) S.μ
        ≤ past deps [tS] + idle [tS] z w + owned [] (appendix z n.toNat) S.μ :=
          add_le_add_left (add_le_add_left (add_le_right _ _) _) _
      _ ≤ past deps [tS] + ready [tS] z w + owned [] (appendix z n.toNat) S.μ :=
          add_le_add_left (add_le_add_right idle_le_ready _) _
      _ = _ := by abel
  · calc ready [tS] z w + past [tS] [q] + past deps [tS]
        ≤ ready [tS] z w + (past [tS] [q] + past [tS] [q]) + past deps [tS] :=
          add_le_add_left (add_le_add_right past_le_add_self _) _
      _ = ready [tS] z w + past [tS] [q] + (past deps [tS] + past [tS] [q]) := by abel
      _ ≤ _ := add_le_add ready_add_past_le past_add_past_le

section
variable {cg cu cd : LayerTensor} {n rowsz : UInt32} {i : FfnIn} {gg uu hh dd xo : Cols}
  {v : ℕ → List Word}

/-- **Gate, up, SiLU and down.** -/
theorem triple_gateUpDown (h : S.Ready fs m nPast) (hl : l < S.D.hp.nLayer)
    (hcg : cg ∈ S.D.layerTensors l) (hcu : cu ∈ S.D.layerTensors l) (hcd : cd ∈ S.D.layerTensors l)
    (hg : S.D.hp.shape (fs l) cg = (n, S.D.hp.nEmbd))
    (hu : S.D.hp.shape (fs l) cu = (n, S.D.hp.nEmbd))
    (hd : S.D.hp.shape (fs l) cd = (S.D.hp.nEmbd, n))
    (hv : ∀ p < m, (v p).length = S.D.hp.nEmbd.toNat) :
    S.model.Triple
      (∑ p ∈ Finset.range m, ready [i.fq8 p] (i.xf.col p) (v p) +
        (∑ p ∈ Finset.range m, idle [] (gg.col p) (List.replicate n.toNat 0) +
          ∑ p ∈ Finset.range m, idle [] (uu.col p) (List.replicate n.toNat 0) +
          ∑ p ∈ Finset.range m, blank (hh.col p) n.toNat S.μ +
          ∑ p ∈ Finset.range m, idle [] (dd.col p) (List.replicate S.D.hp.nEmbd.toNat 0)))
      (gateUpDown S.D cg cu cd l m rowsz n i gg uu hh dd) fun r =>
        ∑ p ∈ Finset.range m, ready [i.fq8 p] (i.xf.col p) (v p) +
          ∑ p ∈ Finset.range m, idle [r p] (dd.col p) (Pass.gateUpDown S.N
            (Pass.weight S.D (.blk l cg)) (Pass.weight S.D (.blk l cu)) (Pass.weight S.D (.blk l cd))
            (·.p) n.toNat (v p)) := by
  set X := ∑ p ∈ Finset.range m, ready [i.fq8 p] (i.xf.col p) (v p) with hX
  set Uu := ∑ p ∈ Finset.range m, idle [] (uu.col p) (List.replicate n.toNat 0)
  set Hh := ∑ p ∈ Finset.range m, blank (hh.col p) n.toNat S.μ with hHh
  set Dd := ∑ p ∈ Finset.range m, idle [] (dd.col p) (List.replicate S.D.hp.nEmbd.toNat 0)
  set vg : ℕ → List Word := fun p =>
    Pass.dot S.N (Pass.weight S.D (.blk l cg)) (Pass.weight S.D (.blk l cg)).p (v p)
  set vu : ℕ → List Word := fun p =>
    Pass.dot S.N (Pass.weight S.D (.blk l cu)) (Pass.weight S.D (.blk l cu)).p (v p)
  have hlen {c : LayerTensor} (hc : c ∈ S.D.layerTensors l)
      (hshape : S.D.hp.shape (fs l) c = (n, S.D.hp.nEmbd)) (p : ℕ) :
      (Pass.dot S.N (Pass.weight S.D (.blk l c)) (Pass.weight S.D (.blk l c)).p (v p)).length =
        n.toNat :=
    (length_layerDot h hl hc _ _).trans (by rw [hshape])
  have hcol {c : LayerTensor} (hshape : S.D.hp.shape (fs l) c = (n, S.D.hp.nEmbd)) (p : ℕ)
      (hp : p < m) : (v p).length = (S.D.hp.shape (fs l) c).2.toNat := by rw [hv p hp, hshape]
  rw [gateUpDown]
  refine triple_layerDot h hl hcg (by rw [hg]) (hcol hg) (fun p _ => List.Subset.refl [i.fq8 p])
    (K := Uu + Hh + Dd) (le_of_eq (by abel)) fun sg => ?_
  refine triple_layerDot h hl hcu (by rw [hu]) (hcol hu) (fun p _ => List.Subset.refl [i.fq8 p])
    (K := ∑ p ∈ Finset.range m, idle [sg p] (gg.col p) (vg p) + Hh + Dd) (le_of_eq (by abel))
    fun su => ?_
  have hsilu : S.model.Triple
      (∑ p ∈ Finset.range m, (ready [sg p] (gg.col p) (vg p) + ready [su p] (uu.col p) (vu p) +
        blank (hh.col p) n.toNat S.μ) + 0)
      (positions m fun p => addSiluQ8 (gg.col p) (uu.col p) (hh.col p) n [sg p, su p]) fun q =>
        ∑ p ∈ Finset.range m, ready [q p] (hh.col p) (Pass.siluMul S.N (vg p) (vu p) n.toNat) + 0 := by
    refine triple_positions (Q := fun p q => ready [q] (hh.col p)
      (Pass.siluMul S.N (vg p) (vu p) n.toNat)) fun p hp => ?_
    simp only [add_zero]
    exact (triple_addSiluQ8 h.laid (hlen hcg hg p) (hlen hcu hu p) (by simp) (by simp)).post
      fun q => add_le_left _ _
  rw [add_zero, Finset.sum_add_distrib, Finset.sum_add_distrib, ← hHh] at hsilu
  refine hsilu.seq (K := X + Dd) ?_ fun hq8 => ?_
  · refine (add_le_add (add_le_add_right sum_idle_le_ready X)
      (add_le_add_left (add_le_add_left sum_idle_le_ready Hh) Dd)).trans (le_of_eq ?_)
    abel
  -- down
  have hsilu (p : ℕ) (_ : p < m) : (Pass.siluMul S.N (vg p) (vu p) n.toNat).length =
      (S.D.hp.shape (fs l) cd).2.toNat := by rw [Pass.length_siluMul, hd]
  have htail : (layerTensor S.D l cd >>= fun w => stageDot S.D.o w hh dd m hq8 rowsz) =
      layerTensor S.D l cd >>= fun w => stageDot S.D.o w hh dd m hq8 rowsz >>= pure := by
    simp only [bind_pure]
  rw [htail]
  refine triple_layerDot h hl hcd (by rw [hd]) hsilu (fun p _ => List.Subset.refl [hq8 p]) (K := X)
    (le_of_eq (by abel)) fun r => .pure ?_
  rw [add_comm]
  exact add_le_add_right (add_le_right _ _) _

/-- **The FFN of a dense layer.** -/
theorem triple_ffnDense (h : S.Ready fs m nPast) (hl : l < S.D.hp.nLayer)
    (hdense : l < S.D.hp.nDenseLead) (hv : ∀ p < m, (v p).length = S.D.hp.nEmbd.toNat) :
    S.model.Triple
      (ffnFinds S l m i v + ∑ p ∈ Finset.range m, blank (xo.col p) S.D.hp.nEmbd.toNat S.μ)
      (ffnDense S.D l m rowsz i xo) fun r =>
        ∑ p ∈ Finset.range m, ready [r p] (xo.col p) (Pass.ffnDense S.N S.D l.toNat (v p)) := by
  have hL := h.laid
  have hm := h.few
  have hS := h.sized
  have hlayer {c : LayerTensor} (hc : c ∈ LayerTensor.dense) : c ∈ S.D.layerTensors l := by
    rw [Decoder.layerTensors, if_pos hdense]
    exact List.mem_append_right _ hc
  refine .pre (add_le_add_left ffnFinds_le _) ?_
  set X2 := ∑ p ∈ Finset.range m, ready [i.tx2 p] (i.x2.col p) (v p)
  set xf : ℕ → List Word := fun p =>
    Pass.rmsNorm S.N S.D (Pass.weight S.D (.blk l .ffnNorm)) (v p) S.D.hp.nEmbd.toNat
  set Xf := ∑ p ∈ Finset.range m, ready [i.fq8 p] (i.xf.col p) (xf p)
  set Xo := ∑ p ∈ Finset.range m, blank (xo.col p) S.D.hp.nEmbd.toNat S.μ
  rw [ffnDense]
  refine (triple_slotAllocCols hL hS.dense hm).seq (zero_add _).ge fun gg => ?_
  refine (triple_slotAllocCols hL hS.dense hm).seq (zero_add _).ge fun uu => ?_
  refine (triple_bufAllocCols hL hS.dense hm).seq (zero_add _).ge fun hh => ?_
  refine (triple_slotAllocCols hL hS.embd hm).seq (zero_add _).ge fun dd => ?_
  have hdown : S.model.Triple _
      (gateUpDown S.D .ffnGate .ffnUp .ffnDown l m rowsz S.D.hp.nFfDense i gg uu hh dd) _ :=
    triple_gateUpDown (v := xf) h hl (hlayer (by decide)) (hlayer (by decide)) (hlayer (by decide)) rfl rfl rfl
      fun p _ => Pass.length_rmsNorm ..
  refine hdown.seq (K := X2 + Xo) (le_of_eq (by abel)) fun sd => ?_
  set dv : ℕ → List Word := fun p => Pass.gateUpDown S.N (Pass.weight S.D (.blk l .ffnGate))
    (Pass.weight S.D (.blk l .ffnUp)) (Pass.weight S.D (.blk l .ffnDown)) (·.p)
    S.D.hp.nFfDense.toNat (xf p)
  have hdv (p : ℕ) : (dv p).length = S.D.hp.nEmbd.toNat :=
    length_layerDot h hl (hlayer (by decide)) _ _
  have hvalue (p : ℕ) : Pass.ffnDense S.N S.D l.toNat (v p) =
      Pass.wmerge S.N S.D (dv p) none (v p) none 1 0 := by
    simp only [Pass.ffnDense, layerWeight_toNat]
    rfl
  have hmerge : S.model.Triple
      (∑ p ∈ Finset.range m, (ready [sd p] (dd.col p) (dv p) + ready [i.tx2 p] (i.x2.col p) (v p) +
        blank (xo.col p) S.D.hp.nEmbd.toNat S.μ) + 0)
      (positions m fun p => addAuxOp .WMERGE (.wmerge
        { parts := dd.col p, gates := none, add1 := some (i.x2.col p), add2 := none
          y := xo.col p, scale := 0x3f800000, nParts := 1, n := S.D.hp.nEmbd.toNat, nFull := 0 })
        [sd p, i.tx2 p]) fun r =>
      ∑ p ∈ Finset.range m, ready [r p] (xo.col p) (Pass.ffnDense S.N S.D l.toNat (v p)) + 0 := by
    refine triple_positions (Q := fun p r => ready [r] (xo.col p)
      (Pass.ffnDense S.N S.D l.toNat (v p))) fun p hp => ?_
    simp only [add_zero, hvalue]
    refine ((triple_mergeDense hL (hdv p) (hv p hp) (@Loc.length_contents (xo.col p) _ S.μ)
      (List.cons_subset_cons _ (List.nil_subset _)) (List.subset_cons_self _ _)
      (List.nil_subset _)).pre ?_).post fun r =>
        (add_le_right _ _).trans idle_le_ready
    exact add_le_add_right (add_le_left _ _) _
  rw [Finset.sum_add_distrib, Finset.sum_add_distrib, add_zero] at hmerge
  refine hmerge.last (K := Xf) ?_ fun r => (add_le_left _ _).trans (add_zero _).le
  refine (add_le_add_left (add_le_add_right sum_idle_le_ready Xf) _).trans (le_of_eq ?_)
  abel

end
end FastLlm
