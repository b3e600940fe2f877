import Mathlib
import FastLlm.Model.ActLayout
import FastLlm.Model.PassFlow

/-!
# The operations of a pass

Each operation of the builder, as a task in memory: from what its buffers hold to what the values of
a pass say it leaves.

## Main definitions

* `triple_addRmsNorm`, `triple_addRope`, … — one triple for each operation.
-/

namespace FastLlm
open Assn Build
open TaskModel (Triple)

variable {S : Setting} {bs : List Buf} {deps : List ℕ} {n m k : ℕ} {x y : Loc}
  {v u old : List Word} {dx dy dz : List ℕ}

/-! ## Operations with a parameter block -/

/-- An operation on the buffers `bs`.  What it waits for is over before it. -/
theorem triple_addAuxOp_past (hL : S.Laid) {kind : TaskKind} {a : Aux} {P X : Assn Loc Word}
    {Y : ℕ → Assn Loc Word} (hdeps : ∀ b ∈ bs, b.deps ⊆ deps)
    (hp : Performs (constAt S.D.pos) S.μ
      (execTaskScalar S.N.E { kind := kind, affinity := .CPU, aux := some a }) (inputs bs)
      (outputs bs) (results bs)) (hP : inputs bs = P) (hX : outputs bs = X)
    (hY : ∀ id, results bs id = Y id) :
    S.model.Triple (P + X) (addAuxOp kind a deps) fun id => P + past deps [id] + Y id := by
  obtain rfl : results bs = Y := funext hY
  subst hP hX
  have hread : (inputs bs + 0).Reads deps fun id => inputs bs + past deps [id] :=
    (reads_inputs hdeps).add (reads_past (List.Subset.refl _))
  rw [add_zero] at hread
  exact triple_auxAlloc hL a (triple_addWith hread (owns_outputs hdeps) hp)

theorem triple_addAuxOp (hL : S.Laid) {kind : TaskKind} {a : Aux} {P X : Assn Loc Word}
    {Y : ℕ → Assn Loc Word} (hdeps : ∀ b ∈ bs, b.deps ⊆ deps)
    (hp : Performs (constAt S.D.pos) S.μ
      (execTaskScalar S.N.E { kind := kind, affinity := .CPU, aux := some a }) (inputs bs)
      (outputs bs) (results bs)) (hP : inputs bs = P) (hX : outputs bs = X)
    (hY : ∀ id, results bs id = Y id) :
    S.model.Triple (P + X) (addAuxOp kind a deps) fun id => P + Y id :=
  (triple_addAuxOp_past hL hdeps hp hP hX hY).post fun _ => add_le_add_left (add_le_left _ _) _

theorem contents_file (hL : S.Laid) (hx : x.obj = 0) :
    (readWords x n).val S.N.file = x.contents n S.μ := by
  rw [val_readWords]
  refine List.map_congr_left fun i _ => ?_
  exact (hL.file _ (by rwa [Loc.obj_add])).symm

theorem span_const (hx : x.obj = 0) : x.span n ⊆ constAt S.D.pos := by
  rintro _ ⟨i, -, rfl⟩
  exact .inl hx

theorem triple_addRmsNorm (hL : S.Laid) {w : WTensor} {n : UInt32} (hw : w.p.obj = 0)
    (hv : v.length = n.toNat) (hold : old.length = n.toNat) (hdx : dx ⊆ deps) (hdy : dy ⊆ deps) :
    S.model.Triple (ready dx x v + idle dy y old) (addRmsNorm S.D w x y n deps) fun id =>
      ready dx x v + idle [id] y (Pass.rmsNorm S.N S.D w v n.toNat) := by
  let P : RmsNormP := { wnorm := w.floats, x := x, y := y, eps := S.D.hp.rmsEps, n := n.toNat }
  let bs : List Buf := [.const w.floats (w.floats.contents n.toNat S.μ), .read dx x v,
    .write dy y old (Pass.rmsNorm S.N S.D w v n.toNat)]
  have hp : Performs (constAt S.D.pos) S.μ (opRmsnorm S.N.E P) (inputs bs) (outputs bs)
      (results bs) := by
    refine performs_op (W := (⟨2, 0⟩ : Loc).span n.toNat)
      (c := [(readWords w.floats n.toNat).val S.N.file, v]) ?_ ?_ ?_ ?_
      (span_subset_outCells rfl rfl hold.ge) fun hpl =>
        sim_opRmsnorm P ⟨0, 0⟩ ⟨1, 0⟩ ⟨2, 0⟩ hpl (held_known rfl rfl ?_)
          (held_known rfl rfl hv.ge) (held_out rfl rfl rfl hold.ge)
    · simp [ConstsIn, bs, span_const (S := S) (x := w.floats) hw]
    · simp [bs, contents_file hL (x := w.floats) hw]
    · simp [bs, hold, Pass.rmsNorm, P]
    · simp [bs, hold]
    · simp [P]
  exact triple_addAuxOp hL (by simp [bs, hdx, hdy]) hp (by simp [bs]) (by simp [bs])
    (by simp [bs])

theorem triple_siluMul (hL : S.Laid) {h : Loc} {n : UInt32} (hv : v.length = n.toNat)
    (hu : u.length = n.toNat) (hold : old.length = n.toNat) (hdx : dx ⊆ deps) (hdy : dy ⊆ deps)
    (hdz : dz ⊆ deps) :
    S.model.Triple (ready dx x v + ready dy y u + idle dz h old)
      (addAuxOp .SILU_MUL (.siluMul { gate := x, up := y, h := h, n := n.toNat }) deps) fun id =>
        ready dx x v + ready dy y u + past deps [id] +
          idle [id] h (Pass.siluMul S.N v u n.toNat) := by
  let P : SiluMulP := { gate := x, up := y, h := h, n := n.toNat }
  let bs : List Buf := [.read dx x v, .read dy y u, .write dz h old (Pass.siluMul S.N v u n.toNat)]
  have hp : Performs (constAt S.D.pos) S.μ (opSiluMul S.N.E P) (inputs bs) (outputs bs)
      (results bs) := by
    refine performs_op (W := (⟨2, 0⟩ : Loc).span n.toNat) (c := [v, u]) ?_ ?_ ?_ ?_
      (span_subset_outCells rfl rfl hold.ge) fun hpl =>
        sim_opSiluMul P ⟨0, 0⟩ ⟨1, 0⟩ ⟨2, 0⟩ hpl (held_known rfl rfl hv.ge)
          (held_known rfl rfl hu.ge) (held_out rfl rfl rfl hold.ge)
    · simp [ConstsIn, bs]
    · simp [bs]
    · simp [bs, hold, Pass.siluMul, P]
    · simp [bs, hold]
  exact triple_addAuxOp_past hL (by simp [bs, hdx, hdy, hdz]) hp (by simp [bs]) (by simp [bs])
    (by simp [bs])

theorem triple_add2 (hL : S.Laid) {z : Loc} (hv : v.length = S.D.hp.nEmbd.toNat)
    (hu : u.length = S.D.hp.nEmbd.toNat) (hold : old.length = S.D.hp.nEmbd.toNat)
    (hdx : dx ⊆ deps) (hdy : dy ⊆ deps) (hdz : dz ⊆ deps) :
    S.model.Triple (ready dx x v + ready dy y u + idle dz z old)
      (addAuxOp .ADD2 (.add2 { a := x, b := y, y := z, n := S.D.hp.nEmbd.toNat }) deps) fun id =>
        ready dx x v + ready dy y u + idle [id] z (Pass.add2 S.N S.D v u) := by
  let P : Add2P := { a := x, b := y, y := z, n := S.D.hp.nEmbd.toNat }
  let bs : List Buf := [.read dx x v, .read dy y u, .write dz z old (Pass.add2 S.N S.D v u)]
  have hp : Performs (constAt S.D.pos) S.μ (opAdd2 S.N.E P) (inputs bs) (outputs bs)
      (results bs) := by
    refine performs_op (W := (⟨2, 0⟩ : Loc).span S.D.hp.nEmbd.toNat) (c := [v, u]) ?_ ?_ ?_ ?_
      (span_subset_outCells rfl rfl hold.ge) fun hpl =>
        sim_opAdd2 P ⟨0, 0⟩ ⟨1, 0⟩ ⟨2, 0⟩ hpl (held_known rfl rfl hv.ge)
          (held_known rfl rfl hu.ge) (held_out rfl rfl rfl hold.ge)
    · simp [ConstsIn, bs]
    · simp [bs]
    · simp [bs, hold, Pass.add2, P]
    · simp [bs, hold]
  exact triple_addAuxOp hL (by simp [bs, hdx, hdy, hdz]) hp (by simp [bs]) (by simp [bs])
    (by simp [bs])

/-- The word of position `p` is `w`. -/
theorem pos_const {p : ℕ} {w : Word} (hw : S.μ (S.D.pos.add p) = w) :
    (S.D.pos.add p).span 1 ⊆ constAt S.D.pos ∧ (S.D.pos.add p).contents 1 S.μ = [w] := by
  constructor
  · rintro _ ⟨i, -, rfl⟩
    exact .inr rfl
  · simp [Loc.contents, hw]

/-- In place; no pair leaves the buffer. -/
theorem triple_addRope (hL : S.Laid) {p : ℕ} {w : Word} (hw : S.μ (S.D.pos.add p) = w)
    {nHead stride rotOff nRot : UInt32}
    (hfit : ∀ h < nHead.toNat,
      h * stride.toNat + rotOff.toNat + 2 * ((nRot.toNat + 1) / 2) ≤ v.length) (hdx : dx ⊆ deps) :
    S.model.Triple (idle dx x v)
      (addRope S.D x (S.D.pos.add p) nHead stride rotOff nRot deps) fun id =>
        idle [id] x (Pass.rope S.N S.D v w nHead.toNat stride.toNat rotOff.toNat nRot.toNat) := by
  let P : RopeP :=
    { buf := x, pos := S.D.pos.add p, nHead := nHead.toNat, headStride := stride.toNat
      rotOff := rotOff.toNat, nRot := nRot.toNat, freqBase := S.D.hp.freqBase
      freqScale := S.D.hp.freqScale, extFactor := S.D.hp.extFactor
      attnFactor := S.D.hp.attnFactor, betaFast := S.D.hp.betaFast, betaSlow := S.D.hp.betaSlow
      nCtxOrig := S.D.hp.nCtxOrig }
  let bs : List Buf := [.edit dx x v
    (Pass.rope S.N S.D v w nHead.toNat stride.toNat rotOff.toNat nRot.toNat),
    .const (S.D.pos.add p) [w]]
  obtain ⟨hspan, hcont⟩ := pos_const hw
  have hp : Performs (constAt S.D.pos) S.μ (opRopeDs2 S.N.E P) (inputs bs) (outputs bs)
      (results bs) := by
    refine performs_op (W := (⟨0, 0⟩ : Loc).span v.length) (c := [v, [w]]) ?_ ?_ ?_ ?_
      (span_subset_outCells rfl rfl le_rfl) fun hpl =>
        sim_opRopeDs2 P ⟨0, 0⟩ ⟨1, 0⟩ hpl (held_known rfl rfl le_rfl) (held_out rfl rfl rfl le_rfl)
          (held_known rfl rfl le_rfl) hfit
    · simp [ConstsIn, bs, hspan, hcont]
    · simp [bs]
    · simp [bs, Pass.rope, P]
    · simp [bs]
  have h : S.model.Triple (0 + idle dx x v) (addAuxOp .ROPE_DS2 (.rope P) deps) fun id => 0 + _ :=
    triple_addAuxOp hL (by simp [bs, hdx]) hp (by simp [bs]) (by simp [bs]) fun id => by simp [bs]; rfl
  simp only [zero_add] at h
  exact h

/-- The row of position `w` in a cache of rows of `k` words. -/
def rowAt (x : Loc) (w : Word) (k : ℕ) : Loc := x.add (w.toNat * k)

theorem triple_addKvAppend (hL : S.Laid) {l : UInt32} {p : ℕ} {w : Word}
    (hw : S.μ (S.D.pos.add p) = w) {kvb kva : Cols} {oldK oldV : List Word} {dk dv : List ℕ}
    (hdk : S.D.hp.dk.toNat = S.D.hp.dNope.toNat + S.D.hp.dRope.toNat)
    (hv : v.length = S.D.hp.nHead.toNat * (S.D.hp.dNope.toNat + S.D.hp.dv.toNat))
    (hu : u.length = S.D.hp.dRope.toNat)
    (hoK : oldK.length = S.D.hp.nHead.toNat * S.D.hp.dk.toNat)
    (hoV : oldV.length = S.D.hp.nHead.toNat * S.D.hp.dv.toNat) (hdx : dx ⊆ deps) (hdy : dy ⊆ deps)
    (hdK : dk ⊆ deps) (hdV : dv ⊆ deps) :
    S.model.Triple (ready dx (kvb.col p) v + ready dy ((kva.col p).add S.D.hp.kvLora.toNat) u +
        (idle dk (rowAt (kcOf S.D l) w (S.D.hp.nHead.toNat * S.D.hp.dk.toNat)) oldK +
          idle dv (rowAt (vcOf S.D l) w (S.D.hp.nHead.toNat * S.D.hp.dv.toNat)) oldV))
      (addKvAppend S.D l p kvb kva deps) fun id =>
        ready dx (kvb.col p) v + ready dy ((kva.col p).add S.D.hp.kvLora.toNat) u +
          (idle [id] (rowAt (kcOf S.D l) w (S.D.hp.nHead.toNat * S.D.hp.dk.toNat))
              (Pass.kvAppend S.D v u).k +
            idle [id] (rowAt (vcOf S.D l) w (S.D.hp.nHead.toNat * S.D.hp.dv.toNat))
              (Pass.kvAppend S.D v u).v) := by
  let P : KvAppendP :=
    { kvb := kvb.col p, kpe := (kva.col p).add S.D.hp.kvLora.toNat, kcache := kcOf S.D l
      vcache := vcOf S.D l, pos := S.D.pos.add p, nHead := S.D.hp.nHead.toNat
      dNope := S.D.hp.dNope.toNat, dRope := S.D.hp.dRope.toNat, dV := S.D.hp.dv.toNat }
  let krow := rowAt (kcOf S.D l) w (S.D.hp.nHead.toNat * S.D.hp.dk.toNat)
  let vrow := rowAt (vcOf S.D l) w (S.D.hp.nHead.toNat * S.D.hp.dv.toNat)
  let bs : List Buf := [.read dx P.kvb v, .read dy P.kpe u,
    .write dk krow oldK (Pass.kvAppend S.D v u).k, .write dv vrow oldV (Pass.kvAppend S.D v u).v]
  have hk : P.nHead * (P.dNope + P.dRope) = S.D.hp.nHead.toNat * S.D.hp.dk.toNat := by rw [hdk]
  have hrows : Performs (constAt S.D.pos) S.μ (kvRows P krow vrow) (inputs bs) (outputs bs)
      (results bs) := by
    refine performs_op (W := (⟨2, 0⟩ : Loc).span (P.nHead * (P.dNope + P.dRope)) ∪
      (⟨3, 0⟩ : Loc).span (P.nHead * P.dV)) (c := [v, u]) ?_ ?_ ?_ ?_
      (Set.union_subset (span_subset_outCells rfl rfl (by simp [hk, hoK]))
        (span_subset_outCells rfl rfl hoV.ge)) fun hpl =>
          sim_kvRows P ⟨0, 0⟩ ⟨1, 0⟩ ⟨2, 0⟩ ⟨3, 0⟩ ⟨4, 0⟩ ⟨2, 0⟩ krow ⟨3, 0⟩ vrow hpl
            (held_known rfl rfl hv.ge) (held_known rfl rfl hu.ge)
            (held_out rfl rfl rfl (by simp [hk, hoK])) (held_out rfl rfl rfl hoV.ge)
    · simp [ConstsIn, bs]
    · simp [bs]
    · -- on buffers of its own the operation appends row 0
      have hzero : opKvAppend { P with kvb := ⟨0, 0⟩, kpe := ⟨1, 0⟩, kcache := ⟨2, 0⟩
                                       vcache := ⟨3, 0⟩, pos := ⟨4, 0⟩ } = _ := opKvAppend_eq _
      have hfinal : (opKvAppend { P with kvb := ⟨0, 0⟩, kpe := ⟨1, 0⟩, kcache := ⟨2, 0⟩
                                         vcache := ⟨3, 0⟩, pos := ⟨4, 0⟩ }).final (bufs [v, u]) =
          (kvRows { P with kvb := ⟨0, 0⟩, kpe := ⟨1, 0⟩, kcache := ⟨2, 0⟩, vcache := ⟨3, 0⟩
                           pos := ⟨4, 0⟩ } ⟨2, 0⟩ ⟨3, 0⟩).final (bufs [v, u]) := by
        rw [hzero, MemProg.final_bind]
        simp [bufs]
      simp [bs, hoK, hoV, Pass.kvAppend, runOp, ← hfinal, P]
    · simp [bs, hoK, hoV, hk, P]
  have hp : Performs (constAt S.D.pos) S.μ (opKvAppend P) (inputs bs) (outputs bs)
      (results bs) := by
    rw [opKvAppend_eq]
    refine Performs.get (.inr rfl) ?_
    have hrow : S.μ P.pos = w := hw
    rw [hrow]
    simpa only [krow, vrow, rowAt, P, hdk, Nat.mul_assoc] using hrows
  exact triple_addAuxOp hL (by simp [bs, hdx, hdy, hdK, hdV]) hp (by simp [bs]; rfl)
    (by simp [bs]; rfl) fun id => by simp [bs]; rfl

/-! ## Routing and merging -/

theorem triple_router (hL : S.Laid) {ids gates : Loc} {oldI oldG : List Word} {di dg : List ℕ}
    (hv : v.length = S.D.hp.nExpert.toNat) (hoI : oldI.length = S.D.hp.nUsed.toNat)
    (hoG : oldG.length = S.D.hp.nUsed.toNat) (hdx : dx ⊆ deps) (hdi : di ⊆ deps)
    (hdg : dg ⊆ deps) :
    S.model.Triple (ready dx x v + (idle di ids oldI + idle dg gates oldG))
      (addAuxOp .ROUTER_SEL (.router
        { logits := x, ids := ids, gates := gates, nExpert := S.D.hp.nExpert.toNat
          topK := S.D.hp.nUsed.toNat, norm := S.D.hp.expertNorm ≠ 0
          scale := S.D.hp.expertScale }) deps) fun id =>
        ready dx x v + (idle [id] ids (Pass.routerSel S.N S.D v).1 +
          idle [id] gates (Pass.routerSel S.N S.D v).2) := by
  let P : RouterP :=
    { logits := x, ids := ids, gates := gates, nExpert := S.D.hp.nExpert.toNat
      topK := S.D.hp.nUsed.toNat, norm := S.D.hp.expertNorm ≠ 0, scale := S.D.hp.expertScale }
  let bs : List Buf := [.read dx x v, .write di ids oldI (Pass.routerSel S.N S.D v).1,
    .write dg gates oldG (Pass.routerSel S.N S.D v).2]
  have hp : Performs (constAt S.D.pos) S.μ (opRouterSel S.N.E P) (inputs bs) (outputs bs)
      (results bs) := by
    refine performs_op (W := (⟨1, 0⟩ : Loc).span P.topK ∪ (⟨2, 0⟩ : Loc).span P.topK) (c := [v])
      ?_ ?_ ?_ ?_ (Set.union_subset (span_subset_outCells rfl rfl hoI.ge)
        (span_subset_outCells rfl rfl hoG.ge)) fun hpl =>
          sim_opRouterSel P ⟨0, 0⟩ ⟨1, 0⟩ ⟨2, 0⟩ hpl (held_known rfl rfl hv.ge)
            (held_out rfl rfl rfl hoI.ge) (held_out rfl rfl rfl hoG.ge)
    · simp [ConstsIn, bs]
    · simp [bs]
    · simp [bs, hoI, hoG, Pass.routerSel, P]
    · simp [bs, hoI, hoG, P]
  exact triple_addAuxOp hL (by simp [bs, hdx, hdi, hdg]) hp (by simp [bs]) (by simp [bs])
    (by simp [bs])

/-- The merge of a dense layer. -/
theorem triple_mergeDense (hL : S.Laid) {z : Loc} (hv : v.length = S.D.hp.nEmbd.toNat)
    (hu : u.length = S.D.hp.nEmbd.toNat) (hold : old.length = S.D.hp.nEmbd.toNat)
    (hdx : dx ⊆ deps) (hdy : dy ⊆ deps) (hdz : dz ⊆ deps) :
    S.model.Triple (ready dx x v + ready dy y u + idle dz z old)
      (addAuxOp .WMERGE (.wmerge
        { parts := x, gates := none, add1 := some y, add2 := none, y := z, scale := 0x3f800000
          nParts := 1, n := S.D.hp.nEmbd.toNat, nFull := 0 }) deps) fun id =>
        ready dx x v + ready dy y u + idle [id] z (Pass.wmerge S.N S.D v none u none 1 0) := by
  let P : WmergeP :=
    { parts := x, gates := none, add1 := some y, add2 := none, y := z, scale := 0x3f800000
      nParts := 1, n := S.D.hp.nEmbd.toNat, nFull := 0 }
  let bs : List Buf := [.read dx x v, .const ⟨0, 0⟩ [], .read dy y u, .const ⟨0, 0⟩ [],
    .write dz z old (Pass.wmerge S.N S.D v none u none 1 0)]
  have hp : Performs (constAt S.D.pos) S.μ (opWmerge S.N.E P) (inputs bs) (outputs bs)
      (results bs) := by
    refine performs_op (W := (⟨4, 0⟩ : Loc).span S.D.hp.nEmbd.toNat) (c := [v, [], u, []])
      ?_ ?_ ?_ ?_ (span_subset_outCells rfl rfl hold.ge) fun hpl =>
        sim_opWmerge (k := 1) P ⟨0, 0⟩ ⟨1, 0⟩ ⟨2, 0⟩ ⟨3, 0⟩ ⟨4, 0⟩ hpl
          (held_known rfl rfl (by simp [P, hv])) (by simp [P]) (by simp [P]) ?_ (by simp [P])
          (held_out rfl rfl rfl hold.ge)
    · simp [ConstsIn, bs, Loc.contents]
    · simp [bs]
    · simp [bs, hold, Pass.wmerge, P]
    · simp [bs, hold]
    · rintro _ ⟨⟩
      exact held_known rfl rfl hu.ge
  exact triple_addAuxOp hL (by simp [bs, hdx, hdy, hdz]) hp (by simp [bs]) (by simp [bs])
    (by simp [bs])

/-- The merge of an expert layer. -/
theorem triple_mergeMoe (hL : S.Laid) {z g b : Loc} {vg vb : List Word} {dg db : List ℕ}
    {nParts nFull : ℕ} (hv : v.length = nParts * S.D.hp.nEmbd.toNat)
    (hg : nParts ≤ vg.length ∧ nFull ≤ vg.length) (hu : u.length = S.D.hp.nEmbd.toNat)
    (hb : vb.length = S.D.hp.nEmbd.toNat) (hold : old.length = S.D.hp.nEmbd.toNat)
    (hdx : dx ⊆ deps) (hdg : dg ⊆ deps) (hdy : dy ⊆ deps) (hdb : db ⊆ deps) (hdz : dz ⊆ deps) :
    S.model.Triple (ready dx x v + ready dg g vg + ready dy y u + ready db b vb + idle dz z old)
      (addAuxOp .WMERGE (.wmerge
        { parts := x, gates := some g, add1 := some y, add2 := some b, y := z, scale := 0x3f800000
          nParts := nParts, n := S.D.hp.nEmbd.toNat, nFull := nFull }) deps) fun id =>
        ready dx x v + ready dg g vg + ready dy y u + ready db b vb +
          idle [id] z (Pass.wmerge S.N S.D v (some vg) u (some vb) nParts nFull) := by
  let P : WmergeP :=
    { parts := x, gates := some g, add1 := some y, add2 := some b, y := z, scale := 0x3f800000
      nParts := nParts, n := S.D.hp.nEmbd.toNat, nFull := nFull }
  let bs : List Buf := [.read dx x v, .read dg g vg, .read dy y u, .read db b vb,
    .write dz z old (Pass.wmerge S.N S.D v (some vg) u (some vb) nParts nFull)]
  have hp : Performs (constAt S.D.pos) S.μ (opWmerge S.N.E P) (inputs bs) (outputs bs)
      (results bs) := by
    refine performs_op (W := (⟨4, 0⟩ : Loc).span S.D.hp.nEmbd.toNat) (c := [v, vg, u, vb])
      ?_ ?_ ?_ ?_ (span_subset_outCells rfl rfl hold.ge) fun hpl =>
        sim_opWmerge (k := vg.length) P ⟨0, 0⟩ ⟨1, 0⟩ ⟨2, 0⟩ ⟨3, 0⟩ ⟨4, 0⟩ hpl
          (held_known rfl rfl hv.ge) ?_ ⟨hg.1, fun _ => hg.2⟩ ?_ ?_ (held_out rfl rfl rfl hold.ge)
    · simp [ConstsIn, bs]
    · simp [bs]
    · simp [bs, hold, Pass.wmerge, P]
    · simp [bs, hold]
    · rintro _ ⟨⟩
      exact held_known rfl rfl le_rfl
    · rintro _ ⟨⟩
      exact held_known rfl rfl hu.ge
    · rintro _ ⟨⟩
      exact held_known rfl rfl hb.ge
  exact triple_addAuxOp hL (by simp [bs, hdx, hdg, hdy, hdb, hdz]) hp
    (by simp [bs, add_assoc]) (by simp [bs]) (by simp [bs])

/-! ## Quantization -/

/-- The appendices of the column of `n` floats at `x`. -/
def appendix (x : Loc) (n : ℕ) : Set Loc :=
  x.within (xqOf n) (xqBytes n) ∪ x.within (xqkOf n) (n / 256 * 292)

theorem within_eq_span (x : Loc) (n : ℕ) : x.within 0 (4 * n) = x.span n := by
  ext l
  rw [Loc.mem_within, Loc.mem_span]
  refine and_congr_right fun _ => ?_
  omega

theorem effect_addActQ8 (dep : ℕ) (x : Loc) (n : UInt32) (s : Plan) :
    CmdProg.wp Plan.effect (addActQ8 dep x n)
      (fun id s' => NewTask s s' (actQ8 x n) [dep] id ∧ ∀ d ∈ [dep], d < id) s := by
  change CmdProg.wp Plan.effect (addWith { kind := .ACT_Q8, affinity := .CPU } [dep] >>= _) _ s
  rw [CmdProg.wp_bind]
  apply CmdProg.wp_mono Plan.effect_mono (effect_addWith _ _ s)
  rintro id s1 ⟨h1, hlt⟩
  refine ⟨⟨h1.next_le, h1.next_eq, ?_, h1.deps_eq, h1.mem_eq⟩, hlt⟩
  rw [Plan.write, h1.task_self, h1.task_eq, Function.update_idem]
  rfl

/-- The column stays; the quantization comes behind what it waits for.  Nobody reads the appendices
here. -/
theorem triple_addActQ8 {dep : ℕ} {n : UInt32} (hv : v.length = n.toNat) (hdx : dx ⊆ [dep]) :
    S.model.Triple (ready dx x v + owned [] (appendix x n.toNat) S.μ) (addActQ8 dep x n) fun id =>
      ready dx x v + past [dep] [id] := by
  have hread : (ready dx x v + 0).Reads [dep] fun id => ready dx x v + past [dep] [id] :=
    (reads_ready hdx).add (reads_past (List.Subset.refl _))
  have hp : Performs (constAt S.D.pos) S.μ (execTaskScalar S.N.E (actQ8 x n)) (ready dx x v + 0)
      (owned [] (appendix x n.toNat) S.μ) fun _ => 0 := by
    rw [add_zero]
    rintro F A B hF - - - - ⟨rfl, -⟩ ⟨rfl, -⟩
    have hb : (execTaskScalar S.N.E (actQ8 x n)).Bounded _ _ := bounded_execActQ8 S.N.E x n
    refine ⟨?_, (hb.writes _).le, fun _ => ⟨∅, Set.empty_subset _, takes_zero⟩⟩
    have hreads := hb.reads F.after
    rw [within_eq_span, ← hv] at hreads
    exact hreads.trans (Set.subset_union_left.trans Set.subset_union_left)
  have h := triple_newTask (effect_addActQ8 dep x n) hread (owns_owned (List.nil_subset _)) hp
  simpa only [add_zero] using h

end FastLlm
