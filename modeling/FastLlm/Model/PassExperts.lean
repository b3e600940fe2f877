import Mathlib
import FastLlm.Model.PassFfn

/-!
# The FFN of an expert layer

The router of a position writes the ids and the gates of its experts.  The tiles of an expert read
the id in their slot; the merge reads the gates behind all experts, and so behind the router, because
an expert with a row waits for it.

## Main definitions

* `routedOf`, `expertPart` — what the router and an expert leave.
* `triple_addRouter`, `triple_addExpert`, `triple_addExperts` — the pieces for one position.
* `triple_ffnMoe` — the FFN of an expert layer.
-/

namespace FastLlm
open Assn Build
open TaskModel (Triple)

variable {S : Setting} {fs : UInt32 → UInt32} {m nPast : ℕ} {l : UInt32}

/-! ## The router -/

/-- The selected experts and their gates for the norm `v`. -/
def routedOf (S : Setting) (l : UInt32) (v : List Word) : List Word × List Word :=
  Pass.routerSel S.N S.D (Pass.dot S.N (Pass.weight S.D (.blk l .ffnGateInp))
    (Pass.weight S.D (.blk l .ffnGateInp)).p v)

theorem length_routedOf (v : List Word) : (routedOf S l v).1.length = S.D.hp.nUsed.toNat ∧
    (routedOf S l v).2.length = S.D.hp.nUsed.toNat := Pass.length_routerSel ..

theorem moe_mem {c : LayerTensor} {D : Decoder} (hmoe : ¬ l < D.hp.nDenseLead)
    (hc : c ∈ LayerTensor.moe) : c ∈ D.layerTensors l := by
  rw [Decoder.layerTensors, if_neg hmoe]
  exact List.mem_append_right _ hc

/-- Room for the ids or the gates of a position. -/
theorem triple_allocUsed (h : S.Ready fs m nPast) :
    S.model.Triple 0 (alloc (S.D.hp.nUsed * 4).toUInt64 64) fun x =>
      idle [] x (x.contents S.D.hp.nUsed.toNat S.μ) := by
  have hused := h.sized.used
  have hfour : (4 : UInt32).toNat = 4 := rfl
  refine (triple_alloc h.laid _ _).post fun x => ?_
  have hwords : (S.D.hp.nUsed * 4).toUInt64.toNat / 4 = S.D.hp.nUsed.toNat := by
    rw [UInt32.toNat_toUInt64, UInt32.toNat_mul, hfour]
    omega
  rw [hwords]

/-- **The router of a position.** -/
theorem triple_addRouter (h : S.Ready fs m nPast) (hl : l < S.D.hp.nLayer)
    (hmoe : ¬ l < S.D.hp.nDenseLead) {rowsz : UInt32} {i : FfnIn} {p : ℕ} {v : List Word}
    (hv : v.length = S.D.hp.nEmbd.toNat) :
    S.model.Triple (ready [i.fn p] (i.xf.col p) v) (addRouter S.D l rowsz i p) fun r =>
      ready [i.fn p] (i.xf.col p) v +
        (ready [r.tRt] r.ids (routedOf S l v).1 + ready [r.tRt] r.gate (routedOf S l v).2) := by
  rw [addRouter]
  refine (triple_slotAlloc h.laid _).seq (zero_add _).ge fun rlog => ?_
  refine triple_tensor fun w hw => ?_
  obtain ⟨hcut, hrows, hcols⟩ :=
    h.consistent.tensor h.sized hl (moe_mem hmoe (by decide : LayerTensor.ffnGateInp ∈ _)) hw
  have hrows : w.rows = S.D.hp.nExpert := hrows
  have hcols : w.cols = S.D.hp.nEmbd := hcols
  have hsel : routedOf S l v = Pass.routerSel S.N S.D (Pass.dot S.N w w.p v) := by
    rw [routedOf, Pass.weight, hw, Option.getD_some]
  rw [hsel]
  refine (triple_addDot_plain h.laid hcut (hv.trans (by rw [hcols])) (List.Subset.refl [i.fn p])
    (List.nil_subset _)).seq (K := 0) ?_ fun tRl => ?_
  · rw [hrows, add_zero, add_comm]
  rw [add_zero]
  refine (triple_allocUsed h).seq (zero_add _).ge fun ids => ?_
  refine (triple_allocUsed h).seq (zero_add _).ge fun gate => ?_
  refine (triple_router (v := Pass.dot S.N w w.p v) h.laid (by rw [Pass.length_dot, hrows])
    (@Loc.length_contents ids _ S.μ) (@Loc.length_contents gate _ S.μ) (List.Subset.refl [tRl])
    (List.nil_subset _) (List.nil_subset _)).seq (K := ready [i.fn p] (i.xf.col p) v) ?_
    fun tRt => .pure ?_
  · refine (add_le_add_right (add_le_add_right (add_le_add_right idle_le_ready _) _) _).trans
      (le_of_eq ?_)
    abel
  · rw [add_comm]
    exact add_le_add_right ((add_le_right _ _).trans (add_le_add idle_le_ready idle_le_ready)) _

/-! ## One expert -/

/-- What the expert `id` leaves of the norm `v`. -/
def expertPart (S : Setting) (l : UInt32) (id : Word) (v : List Word) : List Word :=
  Pass.gateUpDown S.N (Pass.weight S.D (.blk l .ffnGateExps)) (Pass.weight S.D (.blk l .ffnUpExps))
    (Pass.weight S.D (.blk l .ffnDownExps)) (fun w => w.p.add (id.toNat * w.estride.toNat))
    S.D.hp.nFfExp.toNat v

section
variable {wge wue wde : WTensor} {rowsz : UInt32}

/-- The tensors of the experts. -/
structure ExpertTensors (S : Setting) (l rowsz : UInt32) (wge wue wde : WTensor) : Prop where
  gate : S.D.weights (.blk l .ffnGateExps) = some wge
  up : S.D.weights (.blk l .ffnUpExps) = some wue
  down : S.D.weights (.blk l .ffnDownExps) = some wde
  gateCut : wge.Cut rowsz
  upCut : wue.Cut rowsz
  downCut : wde.Cut rowsz
  gateShape : wge.rows = S.D.hp.nFfExp ∧ wge.cols = S.D.hp.nEmbd
  upShape : wue.rows = S.D.hp.nFfExp ∧ wue.cols = S.D.hp.nEmbd
  downShape : wde.rows = S.D.hp.nEmbd ∧ wde.cols = S.D.hp.nFfExp
  width : 0 < S.D.hp.nFfExp.toNat

/-- The dot of the expert whose id is in a slot, behind the router when the matrix has a row. -/
theorem triple_expertDot (hL : S.Laid) {w : WTensor} {x y s : Loc} {v : List Word}
    {dx di deps : List ℕ} {e : Word} (hw : w.Cut rowsz) (hv : v.length = w.cols.toNat)
    (hdx : dx ⊆ deps) (hdi : di ⊆ deps) :
    S.model.Triple
      (ready di s [e] + ready dx x v + idle [] y (List.replicate w.rows.toNat 0))
      (addDot S.D.o w x y deps rowsz (some s)) fun t => ready di s [e] + ready dx x v +
        (pastRows w.rows.toNat deps [t] +
          idle [t] y (Pass.dot S.N w (w.p.add (e.toNat * w.estride.toNat)) v)) :=
  @triple_addDot S rowsz deps S.D.o w x y v dx [] di e hL (some s) hw hv hdx (List.nil_subset _) hdi

/-- What is there behind the router is there behind the activation of an expert, and the router is
over then. -/
theorem ready_behind {x : Loc} {v : List Word} {q g a b c : ℕ} :
    ready [g] x v + past [q, g] [a] + past [a, b] [c] ≤ ready [c] x v + past [g] [c] :=
  calc ready [g] x v + past [q, g] [a] + past [a, b] [c]
      ≤ ready [g] x v + past [g] [a, b] + past [a, b] [c] :=
        add_le_add_left (add_le_add_right (past_le (List.subset_cons_self q [g])
          (List.cons_subset_cons a (List.nil_subset [b]))) _) _
    _ = ready [g] x v + (past [g] [a, b] + past [a, b] [c]) := by rw [add_assoc]
    _ ≤ ready [g] x v + (past [g] [c] + past [g] [c]) :=
        add_le_add_right (past_add_past_le.trans past_le_add_self) _
    _ = ready [g] x v + past [g] [c] + past [g] [c] := by rw [add_assoc]
    _ ≤ _ := add_le_add_left ready_add_past_le _

theorem past_add_pastRows_le {n g a b : ℕ} : past [g] [a] + pastRows n [a] [b] ≤ pastRows n [g] [b] := by
  rw [pastRows, pastRows]
  split_ifs
  · exact le_zero _
  · exact past_add_past_le

/-- **An expert**: gate and up wait for the router `g`, and down waits for them. -/
theorem triple_addExpert (h : S.Ready fs m nPast) (hE : ExpertTensors S l rowsz wge wue wde)
    {x de ids : Loc} {v : List Word} {q g j : ℕ} {id : Word}
    (hv : v.length = S.D.hp.nEmbd.toNat) :
    S.model.Triple
      (ready [g] (ids.add j) [id] + idle [] (de.add (j * S.D.hp.nEmbd.toNat))
        (List.replicate S.D.hp.nEmbd.toNat 0) + ready [q] x v)
      (addExpert S.D wge wue wde rowsz x de ids [q, g] j) fun t =>
        idle [t] (de.add (j * S.D.hp.nEmbd.toNat)) (expertPart S l id v) +
          pastRows S.D.hp.nEmbd.toNat [g] [t] + ready [q] x v := by
  obtain ⟨hgr, hgc⟩ := hE.gateShape
  obtain ⟨hur, huc⟩ := hE.upShape
  obtain ⟨hdr, hdc⟩ := hE.downShape
  have hne : S.D.hp.nFfExp.toNat ≠ 0 := hE.width.ne'
  set I := ready [g] (ids.add j) [id]
  set X := ready [q] x v
  set De := idle [] (de.add (j * S.D.hp.nEmbd.toNat)) (List.replicate S.D.hp.nEmbd.toNat 0)
  set vg := Pass.dot S.N wge (wge.p.add (id.toNat * wge.estride.toNat)) v
  set vu := Pass.dot S.N wue (wue.p.add (id.toNat * wue.estride.toNat)) v
  have hvg : vg.length = S.D.hp.nFfExp.toNat := by rw [Pass.length_dot, hgr]
  have hvu : vu.length = S.D.hp.nFfExp.toNat := by rw [Pass.length_dot, hur]
  rw [addExpert]
  refine (triple_slotAlloc h.laid _).seq (zero_add _).ge fun ge => ?_
  refine (triple_slotAlloc h.laid _).seq (zero_add _).ge fun ue => ?_
  set Ue := idle [] ue (List.replicate S.D.hp.nFfExp.toNat 0) with hUe
  set Ge := idle [] ge (List.replicate S.D.hp.nFfExp.toNat 0)
  -- gate and up
  have hgate : S.model.Triple _ (addDot S.D.o wge x ge [q, g] rowsz (some (ids.add j))) _ :=
    triple_expertDot (e := id) (v := v) h.laid hE.gateCut (hv.trans (by rw [hgc]))
      (List.cons_subset_cons q (List.nil_subset [g])) (List.subset_cons_self q [g])
  have hup : S.model.Triple _ (addDot S.D.o wue x ue [q, g] rowsz (some (ids.add j))) _ :=
    triple_expertDot (e := id) (v := v) h.laid hE.upCut (hv.trans (by rw [huc]))
      (List.cons_subset_cons q (List.nil_subset [g])) (List.subset_cons_self q [g])
  simp only [hgr, pastRows, if_neg hne] at hgate
  rw [hur] at hup
  refine hgate.seq (K := Ue + De) (le_of_eq (by abel)) fun tGe => ?_
  refine hup.seq (K := past [q, g] [tGe] + idle [tGe] ge vg + De) (le_of_eq (by abel)) fun tUe => ?_
  refine (triple_bufAlloc h.laid h.sized.expert).seq (zero_add _).ge fun he => ?_
  refine (triple_addSiluQ8 h.laid hvg hvu
    (List.cons_subset_cons tGe (List.nil_subset [tUe])) (List.subset_cons_self tGe [tUe])).seq
    (K := I + X + De + past [q, g] [tGe]) ?_ fun tHq8 => ?_
  · calc blank he S.D.hp.nFfExp.toNat S.μ + (I + X + (pastRows S.D.hp.nFfExp.toNat [q, g] [tUe] +
            idle [tUe] ue vu) + (past [q, g] [tGe] + idle [tGe] ge vg + De))
        ≤ blank he S.D.hp.nFfExp.toNat S.μ + (I + X + (0 + ready [tUe] ue vu) +
            (past [q, g] [tGe] + ready [tGe] ge vg + De)) := by
          refine add_le_add_right (add_le_add (add_le_add_right (add_le_add (le_zero _)
            idle_le_ready) _) (add_le_add_left (add_le_add_right idle_le_ready _) _)) _
      _ = _ := by
          rw [zero_add]
          abel
  -- down
  set u := Pass.siluMul S.N vg vu S.D.hp.nFfExp.toNat
  have hdown : S.model.Triple _ (addDot S.D.o wde he (de.add (j * S.D.hp.nEmbd.toNat)) [tHq8] rowsz
      (some (ids.add j))) _ :=
    triple_expertDot (e := id) (v := u) h.laid hE.downCut
      ((Pass.length_siluMul ..).trans (by rw [hdc])) (List.Subset.refl [tHq8])
      (List.Subset.refl [tHq8])
  rw [hdr] at hdown
  refine hdown.last (K := past [g] [tHq8] + X) ?_ fun t => ?_
  · calc ready [tHq8] he u + past [tGe, tUe] [tHq8] + (I + X + De + past [q, g] [tGe])
        = I + past [q, g] [tGe] + past [tGe, tUe] [tHq8] + (ready [tHq8] he u + De + X) := by abel
      _ ≤ ready [tHq8] (ids.add j) [id] + past [g] [tHq8] + (ready [tHq8] he u + De + X) :=
          add_le_add_left ready_behind _
      _ = _ := by abel
  · have hvalue : expertPart S l id v =
        Pass.dot S.N wde (wde.p.add (id.toNat * wde.estride.toNat)) u := by
      rw [expertPart, Pass.weight, Pass.weight, Pass.weight, hE.gate, hE.up, hE.down]
      rfl
    rw [hvalue]
    set d := idle [t] (de.add (j * S.D.hp.nEmbd.toNat))
      (Pass.dot S.N wde (wde.p.add (id.toNat * wde.estride.toNat)) u)
    calc ready [tHq8] (ids.add j) [id] + ready [tHq8] he u +
          (pastRows S.D.hp.nEmbd.toNat [tHq8] [t] + d) + (past [g] [tHq8] + X)
        ≤ 0 + (pastRows S.D.hp.nEmbd.toNat [tHq8] [t] + d) + (past [g] [tHq8] + X) :=
          add_le_add_left (add_le_add_left (le_zero _) _) _
      _ = d + (past [g] [tHq8] + pastRows S.D.hp.nEmbd.toNat [tHq8] [t]) + X := by abel
      _ ≤ _ := add_le_add_left (add_le_add_right past_add_pastRows_le _) _

/-! ## The experts of a position -/

/-- What the experts `ids` leave of the norm `v`. -/
def expertParts (S : Setting) (l : UInt32) (ku : ℕ) (ids v : List Word) : List Word :=
  (List.range ku).flatMap fun s => expertPart S l (ids.getD s 0) v

theorem length_expertPart (hE : ExpertTensors S l rowsz wge wue wde) (id : Word) (v : List Word) :
    (expertPart S l id v).length = S.D.hp.nEmbd.toNat := by
  rw [expertPart, Pass.gateUpDown, Pass.length_dot, Pass.weight, hE.down, Option.getD_some,
    hE.downShape.1]

/-- What the experts of a position wait for is over behind all of them, when there is one. -/
theorem sum_pastRows_le {n ku : ℕ} {ds : List ℕ} {ts : List ℕ} (hn : n ≠ 0) (hts : ts.length = ku) :
    ∑ s ∈ Finset.range ku, pastRows n ds [ts.getD s default] ≤ pastRows ku ds ts := by
  rw [pastRows]
  split_ifs with hku
  · exact le_zero _
  · refine (sum_range_le (Nat.one_le_iff_ne_zero.mpr hku)).trans ?_
    rw [Finset.sum_range_one, pastRows, if_neg hn]
    refine past_le (List.Subset.refl _) ?_
    rw [List.getD_eq_getElem _ _ (by omega)]
    simp

theorem reads_pastRows {n : ℕ} {ds deps : List ℕ} :
    (pastRows n ds deps).Reads deps fun id => pastRows n ds [id] := by
  by_cases hn : n = 0
  · simp only [pastRows, if_pos hn]
    exact reads_zero
  · simp only [pastRows, if_neg hn]
    exact reads_past_self

/-- **The experts of a position** behind `g`. -/
theorem triple_addExperts (h : S.Ready fs m nPast) (hE : ExpertTensors S l rowsz wge wue wde)
    {i : FfnIn} {ids : Loc} {g p : ℕ} {v iv : List Word} (hv : v.length = S.D.hp.nEmbd.toNat)
    (hiv : iv.length = S.D.hp.nUsed.toNat) (hembd : S.D.hp.nEmbd.toNat ≠ 0)
    (hku : (expertsAt S.D m p).toNat ≤ S.D.hp.nUsed.toNat) :
    S.model.Triple (ready [i.fq8 p] (i.xf.col p) v + ready [g] ids iv)
      (addExperts S.D wge wue wde rowsz m i ids g p) fun r => ready [i.fq8 p] (i.xf.col p) v +
        (ready [r.1] r.2 (expertParts S l (expertsAt S.D m p).toNat iv v) +
          pastRows (expertsAt S.D m p).toNat [g] [r.1]) := by
  set ku := (expertsAt S.D m p).toNat
  set X := ready [i.fq8 p] (i.xf.col p) v
  have hzeros (k : ℕ) : List.replicate (k * S.D.hp.nEmbd.toNat) (0 : Word) =
      (List.range k).flatMap fun _ => List.replicate S.D.hp.nEmbd.toNat 0 := by
    simp [List.flatMap_def]
  rw [addExperts]
  refine (triple_slotAlloc h.laid _).seq (zero_add _).ge fun de => ?_
  rw [toNat_mul_of_lt h.sized.merged, hzeros, idle_flatMap fun _ _ => List.length_replicate]
  have hids : ready [g] ids iv ≤ ∑ s ∈ Finset.range ku, ready [g] (ids.add s) [iv.getD s 0] := by
    rw [ready_words, hiv]
    exact sum_range_le hku
  have hpre : ∑ s ∈ Finset.range S.D.hp.nUsed.toNat, idle [] (de.add (s * S.D.hp.nEmbd.toNat))
        (List.replicate S.D.hp.nEmbd.toNat 0) + (X + ready [g] ids iv) ≤
      ∑ s ∈ Finset.range ku, (ready [g] (ids.add s) [iv.getD s 0] +
        idle [] (de.add (s * S.D.hp.nEmbd.toNat)) (List.replicate S.D.hp.nEmbd.toNat 0)) + X := by
    rw [Finset.sum_add_distrib]
    refine (add_le_add (sum_range_le hku) (add_le_add_right hids X)).trans (le_of_eq ?_)
    abel
  refine .pre hpre (Triple.mapM_bind (Q := fun s t =>
    idle [t] (de.add (s * S.D.hp.nEmbd.toNat)) (expertPart S l (iv.getD s 0) v) +
      pastRows S.D.hp.nEmbd.toNat [g] [t]) (fun s _ => triple_addExpert h hE hv) fun ts hts => ?_)
  rw [Finset.sum_add_distrib]
  have hread : (∑ s ∈ Finset.range ku, idle [ts.getD s default]
      (de.add (s * S.D.hp.nEmbd.toNat)) (expertPart S l (iv.getD s 0) v) +
        pastRows ku [g] ts).Reads ts fun id =>
      ∑ s ∈ Finset.range ku, idle [id] (de.add (s * S.D.hp.nEmbd.toNat))
        (expertPart S l (iv.getD s 0) v) + pastRows ku [g] [id] := by
    refine (Reads.sum fun s hs => reads_idle_self ?_).add reads_pastRows
    rw [List.getD_eq_getElem _ _ (hs.trans_eq hts.symm)]
    simp
  refine (triple_fanIn hread).seq (K := X) ?_ fun sig => .pure ?_
  · exact add_le_add_left (add_le_add_right (sum_pastRows_le hembd hts) _) _
  · rw [expertParts, ← idle_flatMap fun _ _ => length_expertPart hE _ _, add_comm]
    exact add_le_add_right (add_le_add_left idle_le_ready _) _

/-! ## The layer -/

/-- The ids and the gates of all positions are there behind what their experts wait for. -/
theorem triple_expertGate {t : ℕ → ℕ} {x y : ℕ → Loc} {u v : ℕ → List Word} :
    S.model.Triple (∑ p ∈ Finset.range m, (ready [t p] (x p) (u p) + ready [t p] (y p) (v p)))
      (expertGate S.D m t) fun g =>
        ∑ p ∈ Finset.range m, (ready [g p] (x p) (u p) + ready [g p] (y p) (v p)) := by
  rw [expertGate]
  split_ifs
  · have hmem {p : ℕ} (hp : p < m) : [t p] ⊆ (List.range m).map t := by
      simpa using ⟨p, hp, rfl⟩
    exact (triple_fanIn (Reads.sum fun p hp => (reads_ready_self (hmem hp)).add
      (reads_ready_self (hmem hp)))).bind fun sig => .pure le_rfl
  · exact .pure le_rfl

theorem expertsAt_le (D : Decoder) (p : ℕ) : (expertsAt D m p).toNat ≤ D.hp.nUsed.toNat := by
  rw [expertsAt]
  split_ifs with h
  · exact (UInt32.lt_iff_toNat_lt.mp h.2.2.2.2).le
  · exact le_rfl

theorem expertsAt_eq_zero (D : Decoder) {p : ℕ} (h : (expertsAt D m p).toNat = 0) :
    D.hp.nUsed.toNat = 0 := by
  rw [expertsAt] at h
  split_ifs at h with hk
  · exact absurd (UInt32.toNat_inj.mp h) hk.1
  · exact h

theorem ffnMoe_eq {p : ℕ} {v : List Word} : Pass.ffnMoe S.N S.D l.toNat (expertsAt S.D m p) v =
    Pass.wmerge S.N S.D
      (expertParts S l (expertsAt S.D m p).toNat (routedOf S l (Pass.rmsNorm S.N S.D
        (Pass.weight S.D (.blk l .ffnNorm)) v S.D.hp.nEmbd.toNat)).1 (Pass.rmsNorm S.N S.D
          (Pass.weight S.D (.blk l .ffnNorm)) v S.D.hp.nEmbd.toNat))
      (some (routedOf S l (Pass.rmsNorm S.N S.D (Pass.weight S.D (.blk l .ffnNorm)) v
        S.D.hp.nEmbd.toNat)).2) v
      (some (Pass.gateUpDown S.N (Pass.weight S.D (.blk l .ffnGateShexp))
        (Pass.weight S.D (.blk l .ffnUpShexp)) (Pass.weight S.D (.blk l .ffnDownShexp)) (·.p)
        (Pass.weight S.D (.blk l .ffnGateShexp)).rows.toNat (Pass.rmsNorm S.N S.D
          (Pass.weight S.D (.blk l .ffnNorm)) v S.D.hp.nEmbd.toNat)))
      (expertsAt S.D m p).toNat (if S.D.o.approxRenorm ∧ expertsAt S.D m p < S.D.hp.nUsed then
        S.D.hp.nUsed.toNat else 0) := by
  simp only [Pass.ffnMoe, layerWeight_toNat]
  rfl

/-- The tensors of the experts of a layer. -/
theorem expertTensors (h : S.Ready fs m nPast) (hl : l < S.D.hp.nLayer)
    (hmoe : ¬ l < S.D.hp.nDenseLead) (hg : S.D.weights (.blk l .ffnGateExps) = some wge)
    (hu : S.D.weights (.blk l .ffnUpExps) = some wue)
    (hd : S.D.weights (.blk l .ffnDownExps) = some wde) :
    ExpertTensors S l rowsz wge wue wde := by
  obtain ⟨hgc, hgs⟩ := h.consistent.tensor h.sized hl (moe_mem hmoe (by decide)) hg
  obtain ⟨huc, hus⟩ := h.consistent.tensor h.sized hl (moe_mem hmoe (by decide)) hu
  obtain ⟨hdc, hds⟩ := h.consistent.tensor h.sized hl (moe_mem hmoe (by decide)) hd
  refine ⟨hg, hu, hd, hgc, huc, hdc, hgs, hus, hds, Nat.pos_of_ne_zero fun hz => ?_⟩
  have hrows : wge.rows = S.D.hp.nFfExp := hgs.1
  exact (h.nonEmpty _ wge hg).1 (hrows.trans (UInt32.toNat_inj.mp hz))

theorem embd_ne_zero (h : S.Ready fs m nPast) (hl : l < S.D.hp.nLayer) :
    S.D.hp.nEmbd.toNat ≠ 0 := by
  obtain ⟨w, hw, -, hshape, -⟩ := h.consistent.blk l hl .attnNorm (mem_layerTensors (by decide))
  have hcols : w.cols = S.D.hp.nEmbd := congrArg Prod.snd hshape
  exact fun hz => (h.nonEmpty _ w hw).2 (hcols.trans (UInt32.toNat_inj.mp hz))

/-- **The FFN of an expert layer.** -/
theorem triple_ffnMoe (h : S.Ready fs m nPast) (hl : l < S.D.hp.nLayer)
    (hmoe : ¬ l < S.D.hp.nDenseLead) {i : FfnIn} {xo : Cols} {v : ℕ → List Word}
    (hv : ∀ p < m, (v p).length = S.D.hp.nEmbd.toNat) :
    S.model.Triple
      (ffnFinds S l m i v + ∑ p ∈ Finset.range m, blank (xo.col p) S.D.hp.nEmbd.toNat S.μ)
      (ffnMoe S.D l m rowsz i xo) fun r => ∑ p ∈ Finset.range m, ready [r p] (xo.col p)
        (Pass.ffnMoe S.N S.D l.toNat (expertsAt S.D m p) (v p)) := by
  have hL := h.laid
  have hm := h.few
  set Xo := ∑ p ∈ Finset.range m, blank (xo.col p) S.D.hp.nEmbd.toNat S.μ
  set xf : ℕ → List Word := fun p =>
    Pass.rmsNorm S.N S.D (Pass.weight S.D (.blk l .ffnNorm)) (v p) S.D.hp.nEmbd.toNat
  have hxf (p : ℕ) : (xf p).length = S.D.hp.nEmbd.toNat := Pass.length_rmsNorm ..
  set X2 := ∑ p ∈ Finset.range m, ready [i.tx2 p] (i.x2.col p) (v p)
  set F := ∑ p ∈ Finset.range m, ready [i.fn p] (i.xf.col p) (xf p)
  set Q := ∑ p ∈ Finset.range m, (past [i.fn p] [i.fq8 p] : Assn Loc Word)
  set Xf := ∑ p ∈ Finset.range m, ready [i.fq8 p] (i.xf.col p) (xf p)
  have hFQ : F + Q ≤ Xf := by
    rw [← Finset.sum_add_distrib]
    exact Finset.sum_le_sum fun p _ => ready_add_past_le
  have hfinds : ffnFinds S l m i v = X2 + (F + Q) := by
    rw [ffnFinds, Finset.sum_add_distrib, Finset.sum_add_distrib]
  rw [hfinds, ffnMoe]
  refine triple_tensor fun wge hwge => triple_tensor fun wue hwue => triple_tensor fun wde hwde => ?_
  have hE : ExpertTensors S l rowsz wge wue wde := expertTensors h hl hmoe hwge hwue hwde
  -- the routers
  have hrouter : S.model.Triple (F + 0) (positions m (addRouter S.D l rowsz i)) fun rt =>
      ∑ p ∈ Finset.range m, (ready [i.fn p] (i.xf.col p) (xf p) +
        (ready [(rt p).tRt] (rt p).ids (routedOf S l (xf p)).1 +
          ready [(rt p).tRt] (rt p).gate (routedOf S l (xf p)).2)) + 0 := by
    refine triple_positions (Q := fun p (r : Build.Routed) => ready [i.fn p] (i.xf.col p) (xf p) +
      (ready [r.tRt] r.ids (routedOf S l (xf p)).1 +
        ready [r.tRt] r.gate (routedOf S l (xf p)).2)) fun p hp => ?_
    simpa only [add_zero] using triple_addRouter h hl hmoe (hxf p)
  refine hrouter.seq (K := X2 + Q + Xo) (le_of_eq (by abel)) fun rt => ?_
  rw [Finset.sum_add_distrib]
  refine (triple_expertGate (t := fun p => (rt p).tRt)).seq (K := F + (X2 + Q + Xo))
    (le_of_eq (by abel)) fun gate => ?_
  rw [Finset.sum_add_distrib]
  set I := ∑ p ∈ Finset.range m, ready [gate p] (rt p).ids (routedOf S l (xf p)).1
  set G := ∑ p ∈ Finset.range m, ready [gate p] (rt p).gate (routedOf S l (xf p)).2
  -- the experts
  have hexperts : S.model.Triple
      (∑ p ∈ Finset.range m, (ready [i.fq8 p] (i.xf.col p) (xf p) +
        ready [gate p] (rt p).ids (routedOf S l (xf p)).1) + 0)
      (positions m fun p => addExperts S.D wge wue wde rowsz m i (rt p).ids (gate p) p) fun r =>
      ∑ p ∈ Finset.range m, (ready [i.fq8 p] (i.xf.col p) (xf p) +
        (ready [(r p).1] (r p).2 (expertParts S l (expertsAt S.D m p).toNat
          (routedOf S l (xf p)).1 (xf p)) +
          pastRows (expertsAt S.D m p).toNat [gate p] [(r p).1])) + 0 := by
    refine triple_positions (Q := fun p (r : ℕ × Loc) => ready [i.fq8 p] (i.xf.col p) (xf p) +
      (ready [r.1] r.2 (expertParts S l (expertsAt S.D m p).toNat (routedOf S l (xf p)).1 (xf p)) +
        pastRows (expertsAt S.D m p).toNat [gate p] [r.1])) fun p hp => ?_
    simpa only [add_zero] using triple_addExperts h hE (hxf p) (length_routedOf _).1
      (embd_ne_zero h hl) (expertsAt_le S.D p)
  rw [Finset.sum_add_distrib, add_zero] at hexperts
  refine hexperts.seq (K := G + (X2 + Xo)) ?_ fun rdown => ?_
  · calc I + G + (F + (X2 + Q + Xo)) = F + Q + (I + G + (X2 + Xo)) := by abel
      _ ≤ Xf + (I + G + (X2 + Xo)) := add_le_add_left hFQ _
      _ = Xf + I + (G + (X2 + Xo)) := by abel
  rw [Finset.sum_add_distrib, Finset.sum_add_distrib, add_zero]
  set De := ∑ p ∈ Finset.range m, ready [(rdown p).1] (rdown p).2
    (expertParts S l (expertsAt S.D m p).toNat (routedOf S l (xf p)).1 (xf p))
  set R := ∑ p ∈ Finset.range m, pastRows (expertsAt S.D m p).toNat [gate p] [(rdown p).1]
  -- the gates are there behind the experts
  have hgates : G + R ≤ ∑ p ∈ Finset.range m,
      ready [(rdown p).1] (rt p).gate (routedOf S l (xf p)).2 := by
    rw [← Finset.sum_add_distrib]
    refine Finset.sum_le_sum fun p _ => ?_
    rw [pastRows]
    split_ifs with hku
    · have hnil : (routedOf S l (xf p)).2 = [] := List.length_eq_zero_iff.mp
        ((length_routedOf _).2.trans (expertsAt_eq_zero S.D hku))
      rw [hnil, ready_nil, ready_nil, add_zero]
    · exact ready_add_past_le
  set G' := ∑ p ∈ Finset.range m, ready [(rdown p).1] (rt p).gate (routedOf S l (xf p)).2
  have hpre : Xf + (De + R) + (G + (X2 + Xo)) ≤ Xf + (De + G' + X2 + Xo) :=
    calc Xf + (De + R) + (G + (X2 + Xo)) = G + R + (Xf + De + X2 + Xo) := by abel
      _ ≤ G' + (Xf + De + X2 + Xo) := add_le_add_left hgates _
      _ = _ := by abel
  refine .pre hpre ?_
  -- the shared experts
  refine triple_tensor fun wgs hwgs => ?_
  have hcut : wgs.Cut rowsz ∧ wgs.rows = fs l ∧ _ :=
    h.consistent.tensor h.sized hl (moe_mem hmoe (by decide)) hwgs
  obtain ⟨-, hrows, -⟩ := hcut
  rw [hrows]
  refine (triple_slotAllocCols hL (h.sized.shared l) hm).seq (zero_add _).ge fun gs => ?_
  refine (triple_slotAllocCols hL (h.sized.shared l) hm).seq (zero_add _).ge fun us => ?_
  refine (triple_bufAllocCols hL (h.sized.shared l) hm).seq (zero_add _).ge fun hs => ?_
  refine (triple_slotAllocCols hL h.sized.embd hm).seq (zero_add _).ge fun ds => ?_
  have hshared : S.model.Triple _ (gateUpDown S.D .ffnGateShexp .ffnUpShexp .ffnDownShexp l m rowsz
      (fs l) i gs us hs ds) _ :=
    triple_gateUpDown (v := xf) h hl (moe_mem hmoe (by decide)) (moe_mem hmoe (by decide))
      (moe_mem hmoe (by decide)) rfl rfl rfl fun p _ => hxf p
  refine hshared.seq (K := De + G' + X2 + Xo) (le_of_eq (by abel)) fun sds => ?_
  set vs : ℕ → List Word := fun p => Pass.gateUpDown S.N (Pass.weight S.D (.blk l .ffnGateShexp))
    (Pass.weight S.D (.blk l .ffnUpShexp)) (Pass.weight S.D (.blk l .ffnDownShexp)) (·.p)
    (fs l).toNat (xf p)
  have hlen (p : ℕ) : (vs p).length = S.D.hp.nEmbd.toNat :=
    length_layerDot h hl (moe_mem hmoe (by decide)) _ _
  -- the merge
  have hmerge : S.model.Triple
      (∑ p ∈ Finset.range m, (ready [(rdown p).1] (rdown p).2
          (expertParts S l (expertsAt S.D m p).toNat (routedOf S l (xf p)).1 (xf p)) +
        ready [(rdown p).1] (rt p).gate (routedOf S l (xf p)).2 +
        ready [i.tx2 p] (i.x2.col p) (v p) + ready [sds p] (ds.col p) (vs p) +
        blank (xo.col p) S.D.hp.nEmbd.toNat S.μ) + 0)
      (positions m fun p => addAuxOp .WMERGE (.wmerge
        { parts := (rdown p).2, gates := some (rt p).gate, add1 := some (i.x2.col p)
          add2 := some (ds.col p), y := xo.col p, scale := 0x3f800000
          nParts := (expertsAt S.D m p).toNat, n := S.D.hp.nEmbd.toNat
          nFull := if S.D.o.approxRenorm ∧ expertsAt S.D m p < S.D.hp.nUsed then
            S.D.hp.nUsed.toNat else 0 }) [(rdown p).1, sds p, i.tx2 p]) fun r =>
      ∑ p ∈ Finset.range m, ready [r p] (xo.col p)
        (Pass.ffnMoe S.N S.D l.toNat (expertsAt S.D m p) (v p)) + 0 := by
    refine triple_positions (Q := fun p r => ready [r] (xo.col p)
      (Pass.ffnMoe S.N S.D l.toNat (expertsAt S.D m p) (v p))) fun p hp => ?_
    simp only [add_zero]
    have hw : (Pass.weight S.D (.blk l .ffnGateShexp)).rows.toNat = (fs l).toNat := by
      rw [Pass.weight, hwgs, Option.getD_some, hrows]
    rw [ffnMoe_eq, hw]
    refine ((triple_mergeMoe hL (length_rows fun s _ => length_expertPart hE _ _)
      ⟨(expertsAt_le S.D p).trans_eq (length_routedOf _).2.symm, ?_⟩ (hv p hp) (hlen p)
      (@Loc.length_contents (xo.col p) _ S.μ) (List.cons_subset_cons _ (List.nil_subset _))
      (List.cons_subset_cons _ (List.nil_subset _)) (by simp) (by simp) (List.nil_subset _)).pre
      (add_le_add_right (add_le_left _ _) _)).post fun r => (add_le_right _ _).trans idle_le_ready
    split_ifs
    · exact (length_routedOf _).2.ge
    · exact Nat.zero_le _
  simp only [Finset.sum_add_distrib, add_zero] at hmerge
  refine hmerge.last (K := Xf) ?_ fun r => add_le_left _ _
  refine (add_le_add_left (add_le_add_right sum_idle_le_ready Xf) _).trans (le_of_eq ?_)
  abel

end
end FastLlm
