import FastLlm.Model.Relay
import FastLlm.Model.Stage

/-!
# No task of a pass is left over

Every stage of the builder consumes what the stages before it leave open, so that in
the end the terminal signal alone has no consumer.  With the relay trees this is what
`freeze` checks: a build dies only when a budget is used up.

## Main definitions

* `wires_attention`, `wires_ffnDense`, `wires_ffnMoe`, `wires_layer` — one layer.
* `wires_wire` — the pass.
-/

namespace FastLlm
open Build

/-- The tasks that wrote the residual streams. -/
def Residual.deps (m : ℕ) (r : Residual) : Set ℕ := {d | ∃ p < m, r.dep p = some d}

variable {D : Decoder} {s : Plan} {l : UInt32} {m : ℕ} {rowsz : UInt32} {r : Residual}

/-! ## Operations -/

theorem wires_addRmsNorm {w : WTensor} {x y : Loc} {n : UInt32} (deps : List ℕ) (hs : s.Bounded)
    (hdeps : ∀ d ∈ deps, s.Has d) :
    Wires (addRmsNorm D w x y n deps) s fun id s' => ∃ t, Added s s' t deps id :=
  (wires_addAuxOp _ hs (by decide) hdeps).mono fun _ _ h => ⟨_, h⟩

/-- An operation and the quantization of its result. -/
theorem wires_opThenQ8 {x : Build ℕ} {y : Loc} {n : UInt32} {deps : List ℕ}
    (hx : Wires x s fun id s' => ∃ t, Added s s' t deps id) :
    Wires (do
      let t ← x
      addActQ8 t y n) s fun id s' => Stage s s' {d | d ∈ deps} {id} := by
  apply hx.bind
  intro tn s1 ⟨t, h1⟩
  apply (wires_addActQ8 h1.stage.bounded (h1.stage.out tn rfl)).mono
  intro id s2 h2
  exact (h1.stage.andThen h2.stage (by simp)).of_ins Set.subset_union_left

theorem wires_addSiluQ8 {gate up h : Loc} {n : UInt32} (deps : List ℕ) (hs : s.Bounded)
    (hdeps : ∀ d ∈ deps, s.Has d) :
    Wires (addSiluQ8 gate up h n deps) s fun id s' => Stage s s' {d | d ∈ deps} {id} :=
  wires_opThenQ8 ((wires_addAuxOp _ hs (by decide) hdeps).mono fun _ _ h => ⟨_, h⟩)

theorem wires_addRope {buf pos : Loc} {nHead headStride rotOff nRot : UInt32} (deps : List ℕ)
    (hs : s.Bounded) (hdeps : ∀ d ∈ deps, s.Has d) :
    Wires (addRope D buf pos nHead headStride rotOff nRot deps) s fun id s' =>
      Stage s s' {d | d ∈ deps} {id} :=
  (wires_addAuxOp _ hs (by decide) hdeps).mono fun _ _ h => h.stage

theorem wires_addKvAppend {p : ℕ} {kvb kva : Cols} (deps : List ℕ) (hs : s.Bounded)
    (hdeps : ∀ d ∈ deps, s.Has d) :
    Wires (addKvAppend D l p kvb kva deps) s fun id s' => Stage s s' {d | d ∈ deps} {id} :=
  (wires_addAuxOp _ hs (by decide) hdeps).mono fun _ _ h => h.stage

/-! ## Attention -/

/-- The tensors of a layer, with the widths and heights a build needs. -/
structure Decoder.Ready (D : Decoder) (l : UInt32) : Prop where
  tensor : ∀ c ∈ D.layerTensors l, ∃ w, D.weights (.blk l c) = some w ∧ w.Usable ∧
    (c.isExps = true → w.estride.toNat ≠ 0)
  heads : D.hp.nHead ≠ 0
  used : D.hp.nUsed ≠ 0

theorem Decoder.common_mem {c : LayerTensor} (hc : c ∈ LayerTensor.common) :
    c ∈ D.layerTensors l := List.mem_append_left _ hc

theorem wires_stageA (hD : D.Ready l) {xn : Cols} (hs : s.Bounded)
    (hr : ∀ d ∈ r.deps m, s.Has d) :
    Wires (stageA D l m r xn) s fun aq s' => Stage s s' ∅ (idsOver m aq) := by
  obtain ⟨w, hw, -⟩ := hD.tensor .attnNorm (Decoder.common_mem (by decide))
  refine (wires_positions_ids (fun p => {d | d ∈ (r.dep p).toList}) hs
    fun p s1 hp h1 => ?_).mono fun _ _ h => h.of_ins (Set.empty_subset _)
  apply wires_tensor hw
  apply wires_opThenQ8
  apply wires_addRmsNorm _ h1.bounded
  intro d hd
  exact h1.has d (hr d ⟨p, hp, by simpa using hd⟩)

theorem wires_stageC (hD : D.Ready l) {kva ckv : Cols} {skva : ℕ → ℕ} (hs : s.Bounded)
    (hskva : ∀ p < m, s.Has (skva p)) :
    Wires (stageC D l m kva ckv skva) s fun kq8 s' => Stage s s' ∅ (idsOver m kq8) := by
  obtain ⟨w, hw, -⟩ := hD.tensor .attnKvANorm (Decoder.common_mem (by decide))
  refine (wires_positions_ids (fun p => {d | d ∈ [skva p]}) hs
    fun p s1 hp h1 => ?_).mono fun _ _ h => h.of_ins (Set.empty_subset _)
  apply wires_tensor hw
  apply wires_opThenQ8
  apply wires_addRmsNorm _ h1.bounded
  intro d hd
  rw [List.mem_singleton.mp hd]
  exact h1.has _ (hskva p hp)

theorem wires_addHeads (hD : D.Ready l) {p : ℕ} {q ctx scr : Loc} (deps : List ℕ) (hs : s.Bounded)
    (hdeps : ∀ d ∈ deps, s.Has d) :
    Wires (addHeads D l p q ctx scr deps) s fun id s' => Stage s s' {d | d ∈ deps} {id} := by
  apply (wires_mapM_ids (fun _ _ => {d | d ∈ deps}) hs fun hh s1 _ h1 =>
    (wires_addAuxOp _ h1.bounded (by decide) fun d hd => h1.has d (hdeps d hd)).mono
      fun _ _ h => h.stage).bind
  intro heads s1 ⟨hlen, h1⟩
  apply (wires_fanIn _ h1.bounded fun i hi => h1.out i hi).mono
  intro id s2 h2
  have hpos : 0 < heads.length := by
    rw [hlen, Nat.pos_iff_ne_zero]
    intro hz
    exact hD.heads (UInt32.toNat_inj.mp hz)
  exact (h1.andThen h2.stage subset_rfl).of_ins fun d hd =>
    .inl ⟨0, heads[0], List.getElem?_eq_getElem hpos, hd⟩

theorem wires_appendChain {appCum : Option ℕ} {tApp : ℕ} (hs : s.Bounded) (htApp : s.Has tApp)
    (hcum : ∀ a, appCum = some a → s.Has a) :
    Wires (appendChain appCum tApp) s fun a s' =>
      Stage s s' ({d | appCum = some d} ∪ ({tApp} \ {a})) {a} := by
  cases appCum with
  | none =>
    refine .pure ?_
    have h := Stage.refl hs
    refine ⟨h.toLe, fun i hi => ?_, fun i hi => ?_, fun i hi => .inl hi⟩
    · rcases hi with hi | ⟨hi, hne⟩
      · exact absurd hi (by simp)
      · exact absurd hi hne
    · rw [Set.mem_singleton_iff.mp hi]
      exact htApp
  | some a =>
    apply (wires_fanIn [a, tApp] hs ?_).mono
    · intro id s1 h1
      refine h1.stage.of_ins fun i hi => ?_
      rcases hi with hi | ⟨hi, -⟩
      · have hia : a = i := by simpa [eq_comm] using hi
        simp [← hia]
      · simp [Set.mem_singleton_iff.mp hi]
    · intro d hd
      rcases List.mem_cons.mp hd with rfl | hd
      · exact hcum _ rfl
      · rw [List.mem_singleton.mp hd]
        exact htApp

/-- Stage E at one position: rope, append and heads consume the projections, and the
chain goes on. -/
theorem wires_stageEAt (hD : D.Ready l) {qb kva kvb ctx : Cols} {sq skva skvb : ℕ → ℕ} {p : ℕ}
    {appCum : Option ℕ} (hs : s.Bounded) (hsq : s.Has (sq p)) (hskva : s.Has (skva p))
    (hskvb : s.Has (skvb p)) (hcum : ∀ a, appCum = some a → s.Has a) :
    Wires (stageEAt D l qb kva kvb ctx sq skva skvb p appCum) s fun a s' =>
      Stage s s' {sq p, skva p, skvb p} {a.2} ∧ s'.Has a.1 := by
  apply (wires_addRope [sq p] hs (by simpa using hsq)).bind
  intro tRq s1 h1
  apply (wires_addRope [skva p] h1.bounded (by simpa using h1.has _ hskva)).bind
  intro tRk s2 h2
  have h12 := h1.also h2
  apply (wires_addKvAppend [skvb p, tRk] h2.bounded ?_).bind
  · intro tApp s3 h3
    have h13 := h12.seq {tRq} h3 (by simp) (by
      intro i hi
      rcases hi with hi | hi
      · exact .inr hi
      · exact .inl (by simp [Set.mem_singleton_iff.mp hi]))
    apply (wires_appendChain h3.bounded (h3.out _ rfl)
      fun a ha => h13.has a (hcum a ha)).bind
    intro a s4 h4
    have h14 := h13.seq ({tRq} ∪ ({tApp} ∩ {a})) h4 (by
      intro i hi
      rcases hi with hi | ⟨hi, -⟩
      · exact .inl hi
      · exact .inr hi) (by
      intro i hi
      by_cases hia : i = a
      · rcases hi with hi | hi
        · exact .inr (.inl hi)
        · exact .inr (.inr ⟨hi, hia⟩)
      · rcases hi with hi | hi
        · exact .inr (.inl hi)
        · exact .inl (.inr ⟨hi, hia⟩))
    apply (wires_alloc h4.bounded).bind
    intro scr s5 ⟨h5, _⟩
    have h15 := h14.seq _ h5 subset_rfl Set.subset_union_right
    have htRq : s5.Has tRq := h15.out tRq (.inl (.inl (.inl rfl)))
    have ha : s5.Has a := h15.out a (.inl (.inr rfl))
    apply (wires_addHeads hD [tRq, a] h5.bounded ?_).bind
    · intro tHeads s6 h6
      have h16 := h15.andThen h6 (by
        intro i hi
        rcases hi with ((hi | ⟨-, hi⟩) | hi) | hi
        · simp [Set.mem_singleton_iff.mp hi]
        · simp [Set.mem_singleton_iff.mp hi]
        · simp [Set.mem_singleton_iff.mp hi]
        · exact absurd hi (Set.notMem_empty i))
      apply (wires_addActQ8 h6.bounded (h6.out _ rfl)).bind
      intro cq8 s7 h7
      have h17 := h16.andThen h7.stage (by simp)
      refine .pure ⟨h17.of_ins ?_, h7.stage.has a (h6.has a ha)⟩
      intro i hi
      left; left; left; left
      rcases hi with rfl | rfl | rfl
      · exact .inl (.inl (by simp))
      · exact .inl (.inr (by simp))
      · exact .inr (by simp)
    · intro d hd
      rcases List.mem_cons.mp hd with rfl | hd
      · exact htRq
      · rw [List.mem_singleton.mp hd]
        exact ha
  · intro d hd
    rcases List.mem_cons.mp hd with rfl | hd
    · exact h12.has _ hskvb
    · rw [List.mem_singleton.mp hd]
      exact h2.out _ rfl

theorem wires_stageE (hD : D.Ready l) {qb kva kvb ctx : Cols} {sq skva skvb : ℕ → ℕ}
    (hs : s.Bounded) (hsq : ∀ p < m, s.Has (sq p)) (hskva : ∀ p < m, s.Has (skva p))
    (hskvb : ∀ p < m, s.Has (skvb p)) :
    Wires (stageE D l m qb kva kvb ctx sq skva skvb) s fun cq8 s' =>
      Stage s s' (idsOver m sq ∪ idsOver m skva ∪ idsOver m skvb) (idsOver m cq8) := by
  have hfold := CmdProg.wp_foldlM_range (n := m) (a := (none, []))
    (f := fun (a : Option ℕ × List ℕ) p => do
      let b ← stageEAt D l qb kva kvb ctx sq skva skvb p a.1
      Pure.pure (some b.1, a.2 ++ [b.2]))
    (Plan.spec_mono GraphImpl.Passes (· ∈ budgetErrors))
    (fun k (a : Option ℕ × List ℕ) s' => a.2.length = k ∧
      Stage s s' {i | ∃ p < k, i ∈ ({sq p, skva p, skvb p} : Set ℕ)} {i | i ∈ a.2} ∧
      ∀ c, a.1 = some c → s'.Has c) (s := s) ?_ ?_
  · apply Wires.bind hfold
    rintro a s1 ⟨hlen, h1, -⟩
    have houts : {i | i ∈ a.2} = idsOver m fun p => a.2.getD p default := by
      rw [← gather_ids, gather_getD, hlen]
      rfl
    rw [houts] at h1
    refine .pure (h1.of_ins ?_)
    intro i hi
    rcases hi with (⟨p, hp, rfl⟩ | ⟨p, hp, rfl⟩) | ⟨p, hp, rfl⟩
    · exact ⟨p, hp, .inl rfl⟩
    · exact ⟨p, hp, .inr (.inl rfl)⟩
    · exact ⟨p, hp, .inr (.inr rfl)⟩
  · have hins : {i | ∃ p < 0, i ∈ ({sq p, skva p, skvb p} : Set ℕ)} = ∅ := by
      ext i
      simp
    have houts : {i : ℕ | i ∈ ([] : List ℕ)} = ∅ := by
      ext i
      simp
    refine ⟨rfl, ?_, by simp⟩
    rw [hins, houts]
    exact .refl hs
  · rintro p a s1 hp ⟨hlen, h1, hcum⟩
    apply Wires.bind (wires_stageEAt hD h1.bounded (h1.has _ (hsq p hp)) (h1.has _ (hskva p hp))
      (h1.has _ (hskvb p hp)) hcum)
    rintro b s2 ⟨h2, hb⟩
    refine .pure ⟨by rw [List.length_append, hlen]; rfl, ?_, ?_⟩
    · have hins : {i | ∃ q < p + 1, i ∈ ({sq q, skva q, skvb q} : Set ℕ)} =
          {i | ∃ q < p, i ∈ ({sq q, skva q, skvb q} : Set ℕ)} ∪ {sq p, skva p, skvb p} := by
        ext i
        simp only [Set.mem_ofPred_eq, Set.mem_union, Nat.lt_succ_iff_lt_or_eq, or_and_right,
          exists_or, exists_eq_left]
      have houts : {i | i ∈ a.2 ++ [b.2]} = {i | i ∈ a.2} ∪ {b.2} := by
        ext i
        simp [or_comm]
      rw [hins, houts]
      exact h1.also h2
    · intro c hc
      rw [← Option.some.inj hc]
      exact hb

/-- Stage G: the residual stream and the projection are consumed; the norm is, too. -/
theorem wires_stageG (hD : D.Ready l) {ao x2 xf : Cols} {so : ℕ → ℕ} (hs : s.Bounded)
    (hr : ∀ d ∈ r.deps m, s.Has d) (hso : ∀ p < m, s.Has (so p)) :
    Wires (stageG D l m r ao x2 xf so) s fun g s' =>
      Stage s s' (idsOver m so ∪ r.deps m) (idsOver m (fun p => (g p).1) ∪ idsOver m fun p => (g p).2.2) ∧
        ∀ p < m, s'.Has (g p).2.1 := by
  obtain ⟨w, hw, -⟩ := hD.tensor .ffnNorm (Decoder.common_mem (by decide))
  have hround (p : ℕ) (s1 : Plan) (hp : p < m) (h1 : Plan.Le s s1) : Wires (do
      let tx2 ← addAuxOp .ADD2
        (.add2 { a := r.x p, b := ao.col p, y := x2.col p, n := D.hp.nEmbd.toNat })
        (so p :: (r.dep p).toList)
      let w ← layerTensor D l .ffnNorm
      let fn ← addRmsNorm D w (x2.col p) (xf.col p) D.hp.nEmbd [tx2]
      let fq8 ← addActQ8 fn (xf.col p) D.hp.nEmbd
      Pure.pure (tx2, fn, fq8)) s1 fun a s2 =>
        Stage s1 s2 ({d | d ∈ so p :: (r.dep p).toList} ∪ {a.2.1}) {a.1, a.2.1, a.2.2} := by
    apply (wires_addAuxOp (so p :: (r.dep p).toList) h1.bounded (by decide) ?_).bind
    · intro tx2 s2 h2
      apply wires_tensor hw
      apply (wires_addRmsNorm [tx2] h2.stage.bounded ?_).bind
      · intro fn s3 ⟨t, h3⟩
        apply (wires_addActQ8 h3.stage.bounded (h3.stage.out fn rfl)).bind
        intro fq8 s4 h4
        have h24 := (h2.stage.also h3.stage).also h4.stage
        refine .pure ((h24.of_ins ?_).of_outs ?_)
        · intro i hi
          rcases hi with hi | hi
          · exact .inl (.inl hi)
          · exact .inr (by simp [Set.mem_singleton_iff.mp hi])
        · ext i
          simp only [Set.mem_union, Set.mem_insert_iff, Set.mem_singleton_iff, or_assoc]
      · intro d hd
        rw [List.mem_singleton.mp hd]
        exact h2.stage.out tx2 rfl
    · intro d hd
      rcases List.mem_cons.mp hd with rfl | hd
      · exact h1.has _ (hso p hp)
      · exact h1.has d (hr d ⟨p, hp, by simpa using hd⟩)
  apply (wires_positions (fun p a => {d | d ∈ so p :: (r.dep p).toList} ∪ {a.2.1})
    (fun _ a => {a.1, a.2.1, a.2.2}) hs hround).mono
  intro g s1 h1
  refine ⟨⟨h1.toLe, fun i hi => h1.fed i ?_, fun i hi => h1.out i ?_, fun i hi => ?_⟩,
    fun p hp => h1.out _ ⟨p, hp, .inr (.inl rfl)⟩⟩
  · rcases hi with ⟨p, hp, rfl⟩ | ⟨p, hp, hd⟩
    · exact ⟨p, hp, .inl (by simp)⟩
    · exact ⟨p, hp, .inl (by simp [hd])⟩
  · rcases hi with ⟨p, hp, rfl⟩ | ⟨p, hp, rfl⟩
    · exact ⟨p, hp, .inl rfl⟩
    · exact ⟨p, hp, .inr (.inr rfl)⟩
  · rcases h1.rest i hi with h0 | hf | ⟨p, hp, rfl | rfl | rfl⟩
    · exact .inl h0
    · exact .inr (.inl hf)
    · exact .inr (.inr (.inl ⟨p, hp, rfl⟩))
    · exact .inr (.inl (h1.fed _ ⟨p, hp, .inr rfl⟩))
    · exact .inr (.inr (.inr ⟨p, hp, rfl⟩))

/-- Stages A to G consume the residual stream and leave the tasks the FFN starts from. -/
theorem wires_attention (hD : D.Ready l) (hs : s.Bounded) (hr : ∀ d ∈ r.deps m, s.Has d) :
    Wires (attention D l m rowsz r) s fun i s' =>
      Stage s s' (r.deps m) (idsOver m i.tx2 ∪ idsOver m i.fq8) ∧ ∀ p < m, s'.Has (i.fn p) := by
  obtain ⟨wq, hwq, huq, -⟩ := hD.tensor .attnQ (Decoder.common_mem (by decide))
  obtain ⟨wa, hwa, hua, -⟩ := hD.tensor .attnKvAMqa (Decoder.common_mem (by decide))
  obtain ⟨wb, hwb, hub, -⟩ := hD.tensor .attnKvB (Decoder.common_mem (by decide))
  obtain ⟨wo, hwo, huo, -⟩ := hD.tensor .attnOutput (Decoder.common_mem (by decide))
  rw [attention]
  refine (wires_bufAllocCols hs).after fun xn s1 h1 => ?_
  refine (wires_slotAllocCols h1.bounded).after fun qb s2 h2 => ?_
  refine (wires_slotAllocCols h2.bounded).after fun kva s3 h3 => ?_
  refine (wires_bufAllocCols h3.bounded).after fun ckv s4 h4 => ?_
  refine (wires_slotAllocCols h4.bounded).after fun kvb s5 h5 => ?_
  refine (wires_bufAllocCols h5.bounded).after fun ctx s6 h6 => ?_
  refine (wires_slotAllocCols h6.bounded).after fun ao s7 h7 => ?_
  refine (wires_bufAllocCols h7.bounded).after fun x2 s8 h8 => ?_
  refine (wires_bufAllocCols h8.bounded).after fun xf s9 h9 => ?_
  have h09 := h1.trans (h2.trans (h3.trans (h4.trans (h5.trans (h6.trans (h7.trans (h8.trans h9)))))))
  have hr9 : ∀ d ∈ r.deps m, s9.Has d := fun d hd => h09.has d (hr d hd)
  -- A, then the two projections of its result
  apply (wires_stageA hD h9.bounded hr9).bind
  intro aq sA hA
  have haq : ∀ p < m, sA.Has (aq p) := fun p hp => hA.out _ (mem_idsOver hp)
  apply wires_tensor hwq
  apply (wires_stageDot huq hA.bounded haq).bind
  intro sq sB hB
  apply wires_tensor hwa
  apply (wires_stageDot hua hB.bounded fun p hp => hB.has _ (haq p hp)).bind
  intro skva sB' hB'
  have hAB := (hA.andThen hB subset_rfl).also hB'
  have hskva : ∀ p < m, sB'.Has (skva p) := fun p hp => hB'.out _ (mem_idsOver hp)
  -- C and D
  apply (wires_stageC hD hB'.bounded hskva).bind
  intro kq8 sC hC
  apply wires_tensor hwb
  apply (wires_stageDot hub hC.bounded fun p hp => hC.out _ (mem_idsOver hp)).bind
  intro skvb sD hD'
  have hCD := hAB.also (hC.andThen hD' subset_rfl)
  -- E consumes the projections
  apply (wires_stageE hD hD'.bounded (fun p hp => hCD.out _ (.inl (.inl (mem_idsOver hp))))
    (fun p hp => hCD.out _ (.inl (.inr (mem_idsOver hp)))) fun p hp => hD'.out _ (mem_idsOver hp)).bind
  intro cq8 sE hE
  have hAE := hCD.andThen hE subset_rfl
  apply wires_tensor hwo
  apply (wires_stageDot huo hE.bounded fun p hp => hE.out _ (mem_idsOver hp)).bind
  intro so sF hF
  have hAF := hAE.andThen hF subset_rfl
  -- G consumes the residual stream
  apply (wires_stageG hD hF.bounded (fun d hd => hAF.has d (hr9 d hd))
    fun p hp => hF.out _ (mem_idsOver hp)).bind
  intro g sG ⟨hG, hfn⟩
  refine .pure ⟨(hAF.andThen hG Set.subset_union_left).of_ins ?_, hfn⟩
  intro d hd
  exact .inr (.inr hd)

/-! ## FFN -/

/-- What the FFN finds in the plan. -/
structure FfnIn.In (i : FfnIn) (m : ℕ) (s : Plan) : Prop where
  bounded : s.Bounded
  tx2 : ∀ p < m, s.Has (i.tx2 p)
  fn : ∀ p < m, s.Has (i.fn p)
  fq8 : ∀ p < m, s.Has (i.fq8 p)

theorem FfnIn.In.le {i : FfnIn} {s' : Plan} (h : i.In m s) (hle : Plan.Le s s') : i.In m s' :=
  ⟨hle.bounded, fun p hp => hle.has _ (h.tx2 p hp), fun p hp => hle.has _ (h.fn p hp),
    fun p hp => hle.has _ (h.fq8 p hp)⟩

theorem wires_gateUpDown {wg wu wd : LayerTensor} {n : UInt32} {i : FfnIn} {gg uu hh dd : Cols}
    (hg : ∃ w, D.weights (.blk l wg) = some w ∧ w.Usable)
    (hu : ∃ w, D.weights (.blk l wu) = some w ∧ w.Usable)
    (hd : ∃ w, D.weights (.blk l wd) = some w ∧ w.Usable) (hs : i.In m s) :
    Wires (gateUpDown D wg wu wd l m rowsz n i gg uu hh dd) s fun sd s' =>
      Stage s s' (idsOver m i.fq8) (idsOver m sd) := by
  obtain ⟨tg, htg, hug⟩ := hg
  obtain ⟨tu, htu, huu⟩ := hu
  obtain ⟨td, htd, hud⟩ := hd
  apply wires_tensor htg
  apply (wires_stageDot hug hs.bounded hs.fq8).bind
  intro sg s1 h1
  apply wires_tensor htu
  apply (wires_stageDot huu h1.bounded fun p hp => h1.has _ (hs.fq8 p hp)).bind
  intro su s2 h2
  have h12 := h1.also h2
  have hsilu (p : ℕ) (s3 : Plan) (hp : p < m) (h3 : Plan.Le s2 s3) :
      Wires (addSiluQ8 (gg.col p) (uu.col p) (hh.col p) n [sg p, su p]) s3 fun id s' =>
        Stage s3 s' {d | d ∈ [sg p, su p]} {id} := by
    apply wires_addSiluQ8 _ h3.bounded
    intro d hd
    rcases List.mem_cons.mp hd with rfl | hd
    · exact h3.has _ (h12.out _ (.inl (mem_idsOver hp)))
    · rw [List.mem_singleton.mp hd]
      exact h3.has _ (h2.out _ (mem_idsOver hp))
  apply (wires_positions_ids _ h2.bounded hsilu).bind
  intro hq8 s3 h3
  have h13 := h12.andThen h3 (by
    intro i hi
    rcases hi with ⟨p, hp, rfl⟩ | ⟨p, hp, rfl⟩
    · exact ⟨p, hp, by simp⟩
    · exact ⟨p, hp, by simp⟩)
  apply wires_tensor htd
  apply (wires_stageDot hud h3.bounded fun p hp => h3.out _ (mem_idsOver hp)).mono
  intro sd s4 h4
  exact (h13.andThen h4 subset_rfl).of_ins fun i hi => .inl (.inl (.inl hi))

/-- The merges at the end of a layer. -/
theorem wires_merges {f : ℕ → Aux} {deps : ℕ → List ℕ} (hs : s.Bounded)
    (hdeps : ∀ p < m, ∀ d ∈ deps p, s.Has d) :
    Wires (positions m fun p => addAuxOp .WMERGE (f p) (deps p)) s fun tLo s' =>
      Stage s s' {d | ∃ p < m, d ∈ deps p} (idsOver m tLo) :=
  wires_positions_ids (fun p => {d | d ∈ deps p}) hs fun p _ hp h1 =>
    (wires_addAuxOp _ h1.bounded (by decide) fun d hd => h1.has d (hdeps p hp d hd)).mono
      fun _ _ h => h.stage

theorem wires_ffnDense (hD : D.Ready l) (hl : l < D.hp.nDenseLead) {i : FfnIn} {xo : Cols}
    (hs : i.In m s) :
    Wires (ffnDense D l m rowsz i xo) s fun tLo s' =>
      Stage s s' (idsOver m i.tx2 ∪ idsOver m i.fq8) (idsOver m tLo) := by
  have htensor (c : LayerTensor) (hc : c ∈ LayerTensor.dense) :
      ∃ w, D.weights (.blk l c) = some w ∧ w.Usable := by
    obtain ⟨w, hw, hu, -⟩ := hD.tensor c (by rw [Decoder.layerTensors, if_pos hl]; simp [hc])
    exact ⟨w, hw, hu⟩
  refine (wires_slotAllocCols hs.bounded).after_stage fun gg s1 h1 => ?_
  refine (wires_slotAllocCols h1.bounded).after_stage fun uu s2 h2 => ?_
  refine (wires_bufAllocCols h2.bounded).after_stage fun hh s3 h3 => ?_
  refine (wires_slotAllocCols h3.bounded).after_stage fun dd s4 h4 => ?_
  have hs4 := hs.le (h1.trans (h2.trans (h3.trans h4)))
  apply (wires_gateUpDown (htensor _ (by decide)) (htensor _ (by decide)) (htensor _ (by decide))
    hs4).bind
  intro sd s5 h5
  have hdeps : ∀ p < m, ∀ d ∈ [sd p, i.tx2 p], s5.Has d := by
    intro p hp d hd
    rcases List.mem_cons.mp hd with rfl | hd
    · exact h5.out _ (mem_idsOver hp)
    · rw [List.mem_singleton.mp hd]
      exact h5.has _ (hs4.tx2 p hp)
  apply (wires_merges h5.bounded hdeps).mono
  intro tLo s6 h6
  refine (h5.andThen h6 ?_).of_ins ?_
  · rintro i ⟨p, hp, rfl⟩
    exact ⟨p, hp, by simp⟩
  · intro j hj
    rcases hj with ⟨p, hp, rfl⟩ | hj
    · exact .inr ⟨p, hp, by simp⟩
    · exact .inl hj

/-- Routing consumes the norm of the position. -/
theorem wires_addRouter (hD : D.Ready l) (hl : ¬ l < D.hp.nDenseLead) {i : FfnIn} {p : ℕ}
    (hs : i.In m s) (hp : p < m) :
    Wires (addRouter D l rowsz i p) s fun rt s' => Stage s s' ∅ {rt.tRt} := by
  obtain ⟨w, hw, hu, -⟩ := hD.tensor .ffnGateInp
    (by rw [Decoder.layerTensors, if_neg hl]; decide)
  refine (wires_slotAlloc hs.bounded).after_stage fun rlog s1 h1 => ?_
  apply wires_tensor hw
  apply (wires_addDot [i.fn p] hu (by simp) h1.bounded ?_).bind
  · intro tRl s2 ⟨h2, _⟩
    refine Wires.mono (Q := fun rt s' => Stage s2 s' {tRl} {rt.tRt}) ?_
      fun rt s3 h3 => (h2.andThen h3 subset_rfl).of_ins (Set.empty_subset _)
    refine (wires_alloc h2.bounded).after_stage fun ids s3 h3 => ?_
    refine (wires_alloc h3.bounded).after_stage fun gate s4 h4 => ?_
    apply (wires_addAuxOp [tRl] h4.bounded (by decide) ?_).bind
    · intro tRt s5 h5
      exact .pure (h5.stage.of_ins (by simp))
    · intro d hd
      rw [List.mem_singleton.mp hd]
      exact h4.has _ (h3.has _ (h2.out _ rfl))
  · intro d hd
    rw [List.mem_singleton.mp hd]
    exact h1.has _ (hs.fn p hp)

theorem wires_expertGate {tRt : ℕ → ℕ} (hm : 1 ≤ m) (hs : s.Bounded) (ht : ∀ p < m, s.Has (tRt p)) :
    Wires (expertGate D m tRt) s fun gate s' =>
      Stage s s' (idsOver m tRt \ idsOver m gate) (idsOver m gate) := by
  rw [expertGate]
  split_ifs
  · apply (wires_fanIn ((List.range m).map tRt) hs ?_).bind
    · intro sig s1 h1
      refine .pure ?_
      rw [idsOver_const hm]
      refine h1.stage.of_ins ?_
      rintro i ⟨⟨p, hp, rfl⟩, -⟩
      exact List.mem_map.mpr ⟨p, List.mem_range.mpr hp, rfl⟩
    · intro d hd
      obtain ⟨p, hp, rfl⟩ := List.mem_map.mp hd
      exact ht p (List.mem_range.mp hp)
  · refine .pure ⟨(Stage.refl hs).toLe, fun i hi => absurd hi.1 hi.2, fun i hi => ?_,
      fun i hi => .inl hi⟩
    obtain ⟨p, hp, rfl⟩ := hi
    exact ht p hp

/-- One expert of one position. -/
theorem wires_addExpert {wge wue wde : WTensor} {xf de ids : Loc} {deps : List ℕ} {k : ℕ}
    (hge : wge.Usable ∧ wge.estride.toNat ≠ 0) (hue : wue.Usable ∧ wue.estride.toNat ≠ 0)
    (hde : wde.Usable ∧ wde.estride.toNat ≠ 0) (hs : s.Bounded) (hdeps : ∀ d ∈ deps, s.Has d) :
    Wires (addExpert D wge wue wde rowsz xf de ids deps k) s fun id s' =>
      Stage s s' {d | d ∈ deps} {id} := by
  refine (wires_slotAlloc hs).after_stage fun ge s1 h1 => ?_
  refine (wires_slotAlloc h1.bounded).after_stage fun ue s2 h2 => ?_
  have hdeps2 : ∀ d ∈ deps, s2.Has d := fun d hd => h2.has d (h1.has d (hdeps d hd))
  apply (wires_addDot _ hge.1 (fun _ => hge.2) h2.bounded hdeps2).bind
  intro tGe s3 ⟨h3, _⟩
  apply (wires_addDot _ hue.1 (fun _ => hue.2) h3.bounded fun d hd => h3.has d (hdeps2 d hd)).bind
  intro tUe s4 ⟨h4, _⟩
  have h34 := h3.also h4
  apply (wires_bufAlloc h4.bounded).bind
  intro he s5 ⟨h5, _⟩
  have h35 := h34.seq _ h5 subset_rfl Set.subset_union_right
  apply (wires_addSiluQ8 [tGe, tUe] h5.bounded ?_).bind
  · intro tHq8 s6 h6
    have h36 := h35.andThen h6 (by
      intro i hi
      rcases hi with (hi | hi) | hi
      · simp [Set.mem_singleton_iff.mp hi]
      · simp [Set.mem_singleton_iff.mp hi]
      · exact absurd hi (Set.notMem_empty i))
    apply (wires_addDot [tHq8] hde.1 (fun _ => hde.2) h6.bounded ?_).mono
    · intro id s7 ⟨h7, _⟩
      exact (h36.andThen h7 (by simp)).of_ins fun d hd => .inl (.inl (.inl (.inl hd)))
    · intro d hd
      rw [List.mem_singleton.mp hd]
      exact h6.out _ rfl
  · intro d hd
    rcases List.mem_cons.mp hd with rfl | hd
    · exact h35.out _ (.inl (.inl rfl))
    · rw [List.mem_singleton.mp hd]
      exact h35.out _ (.inl (.inr rfl))

theorem expertsAt_ne (hused : D.hp.nUsed ≠ 0) (m p : ℕ) : expertsAt D m p ≠ 0 := by
  rw [expertsAt]
  split_ifs with h
  · exact h.1
  · exact hused

/-- The experts of one position. -/
theorem wires_addExperts (hD : D.Ready l) {wge wue wde : WTensor} {i : FfnIn} {ids : Loc}
    {tRt p : ℕ} (hge : wge.Usable ∧ wge.estride.toNat ≠ 0)
    (hue : wue.Usable ∧ wue.estride.toNat ≠ 0) (hde : wde.Usable ∧ wde.estride.toNat ≠ 0)
    (hs : s.Bounded) (hfq8 : s.Has (i.fq8 p)) (htRt : s.Has tRt) :
    Wires (addExperts D wge wue wde rowsz m i ids tRt p) s fun a s' =>
      Stage s s' {i.fq8 p, tRt} {a.1} := by
  have hdeps : ∀ d ∈ [i.fq8 p, tRt], s.Has d := by
    intro d hd
    rcases List.mem_cons.mp hd with rfl | hd
    · exact hfq8
    · rw [List.mem_singleton.mp hd]
      exact htRt
  refine (wires_slotAlloc hs).after_stage fun de s1 h1 => ?_
  apply (wires_mapM_ids (fun _ _ => {d | d ∈ [i.fq8 p, tRt]}) h1.bounded fun k s2 _ h2 =>
    wires_addExpert hge hue hde h2.bounded fun d hd => h2.has d (h1.has d (hdeps d hd))).bind
  intro downs s2 ⟨hlen, h2⟩
  apply (wires_fanIn _ h2.bounded fun d hd => h2.out d hd).bind
  intro sig s3 h3
  have hpos : 0 < downs.length := by
    rw [hlen, Nat.pos_iff_ne_zero]
    intro hz
    exact expertsAt_ne hD.used m p (UInt32.toNat_inj.mp hz)
  refine .pure ((h2.andThen h3.stage subset_rfl).of_ins fun d hd => .inl ?_)
  exact ⟨0, downs[0], List.getElem?_eq_getElem hpos, by simpa using hd⟩

theorem wires_ffnMoe (hD : D.Ready l) (hl : ¬ l < D.hp.nDenseLead) (hm : 1 ≤ m) {i : FfnIn}
    {xo : Cols} (hs : i.In m s) :
    Wires (ffnMoe D l m rowsz i xo) s fun tLo s' =>
      Stage s s' (idsOver m i.tx2 ∪ idsOver m i.fq8) (idsOver m tLo) := by
  have hmem {c : LayerTensor} (hc : c ∈ LayerTensor.moe) : c ∈ D.layerTensors l := by
    rw [Decoder.layerTensors, if_neg hl]
    exact List.mem_append_right _ hc
  obtain ⟨wge, hwge, huge, hsge⟩ := hD.tensor .ffnGateExps (hmem (by decide))
  obtain ⟨wue, hwue, huue, hsue⟩ := hD.tensor .ffnUpExps (hmem (by decide))
  obtain ⟨wde, hwde, hude, hsde⟩ := hD.tensor .ffnDownExps (hmem (by decide))
  obtain ⟨wgs, hwgs, hugs, -⟩ := hD.tensor .ffnGateShexp (hmem (by decide))
  obtain ⟨wus, hwus, huus, -⟩ := hD.tensor .ffnUpShexp (hmem (by decide))
  obtain ⟨wds, hwds, huds, -⟩ := hD.tensor .ffnDownShexp (hmem (by decide))
  apply wires_tensor hwge
  apply wires_tensor hwue
  apply wires_tensor hwde
  -- routing
  apply (wires_positions (fun _ _ => ∅) (fun _ rt => {rt.tRt}) hs.bounded
    fun p s1 hp h1 => wires_addRouter hD hl (hs.le h1) hp).bind
  intro rt s1 h1
  have hrt : ∀ p < m, s1.Has (rt p).tRt := fun p hp => h1.out _ ⟨p, hp, rfl⟩
  apply (wires_expertGate hm h1.bounded hrt).bind
  intro gate s2 h2
  have h12 : Stage s s2 ∅ (idsOver m gate) := by
    have h := h1.seq (idsOver m (fun p => (rt p).tRt) ∩ idsOver m gate) h2
      (fun i hi => hi.1) (fun i hi => by
        by_cases hg : i ∈ idsOver m gate
        · exact .inr ⟨hi, hg⟩
        · exact .inl ⟨hi, hg⟩)
    exact (h.of_ins (Set.empty_subset _)).of_outs
      (Set.union_eq_self_of_subset_left Set.inter_subset_right)
  -- the experts
  have hs2 := hs.le h12.toLe
  apply (wires_positions (fun p _ => {i.fq8 p, gate p}) (fun _ a => {a.1})
    h2.bounded fun p s3 hp h3 => wires_addExperts hD ⟨huge, hsge rfl⟩ ⟨huue, hsue rfl⟩
      ⟨hude, hsde rfl⟩ h3.bounded (h3.has _ (hs2.fq8 p hp)) (h3.has _ (h2.out _ (mem_idsOver hp)))).bind
  intro rdown s3 h3
  have h13 := h12.andThen h3 (by
    rintro i ⟨p, hp, rfl⟩
    exact ⟨p, hp, .inr rfl⟩)
  -- the shared expert
  apply wires_tensor hwgs
  apply (wires_slotAllocCols h3.bounded).bind
  intro gs s4 ⟨h4, _⟩
  apply (wires_slotAllocCols h4.bounded).bind
  intro us s5 ⟨h5, _⟩
  apply (wires_bufAllocCols h5.bounded).bind
  intro hs' s6 ⟨h6, _⟩
  apply (wires_slotAllocCols h6.bounded).bind
  intro ds s7 ⟨h7, _⟩
  have h37 := ((h4.also h5).also h6).also h7
  have h17 := h13.also h37
  have hs7 := hs.le h17.toLe
  apply (wires_gateUpDown ⟨wgs, hwgs, hugs⟩ ⟨wus, hwus, huus⟩ ⟨wds, hwds, huds⟩ hs7).bind
  intro sds s8 h8
  have h18 := h17.also h8
  have hdeps : ∀ p < m, ∀ d ∈ [(rdown p).1, sds p, i.tx2 p], s8.Has d := by
    intro p hp d hd
    rcases List.mem_cons.mp hd with rfl | hd
    · exact h8.has _ (h37.has _ (h3.out _ ⟨p, hp, rfl⟩))
    · rcases List.mem_cons.mp hd with rfl | hd
      · exact h8.out _ (mem_idsOver hp)
      · rw [List.mem_singleton.mp hd]
        exact h18.has _ (hs.tx2 p hp)
  apply (wires_merges h8.bounded hdeps).mono
  intro tLo s9 h9
  refine (h18.andThen h9 ?_).of_ins ?_
  · intro j hj
    rcases hj with (⟨p, hp, hj⟩ | hj) | ⟨p, hp, rfl⟩
    · exact ⟨p, hp, by simp [Set.mem_singleton_iff.mp hj]⟩
    · simp at hj
    · exact ⟨p, hp, by simp⟩
  · intro j hj
    rcases hj with ⟨p, hp, rfl⟩ | hj
    · exact .inr ⟨p, hp, by simp⟩
    · exact .inl (.inr hj)

/-! ## The pass -/

theorem wires_ffn (hD : D.Ready l) (hm : 1 ≤ m) {i : FfnIn} {xo : Cols} (hs : i.In m s) :
    Wires (ffn D l m rowsz i xo) s fun tLo s' =>
      Stage s s' (idsOver m i.tx2 ∪ idsOver m i.fq8) (idsOver m tLo) := by
  rw [ffn]
  split_ifs with hl
  · exact wires_ffnDense hD hl hs
  · exact wires_ffnMoe hD hl hm hs

/-- A layer consumes the residual streams it finds and leaves those it writes. -/
theorem wires_layer (hD : D.Ready l) (hm : 1 ≤ m) (hs : s.Bounded) (hr : ∀ d ∈ r.deps m, s.Has d) :
    Wires (layer D m rowsz r l) s fun r' s' =>
      Stage s s' (r.deps m) (r'.deps m) ∧ ∀ p, (r'.dep p).isSome = true := by
  apply (wires_attention hD hs hr).bind
  intro i s1 ⟨h1, hfn⟩
  apply (wires_bufAllocCols h1.bounded).bind
  intro xo s2 ⟨h2, _⟩
  have h12 := h1.seq _ h2 subset_rfl Set.subset_union_right
  rw [Set.union_empty, Set.union_empty] at h12
  have hs2 : i.In m s2 := ⟨h2.bounded, fun p hp => h12.out _ (.inl (mem_idsOver hp)),
    fun p hp => h2.has _ (hfn p hp), fun p hp => h12.out _ (.inr (mem_idsOver hp))⟩
  apply (wires_ffn hD hm hs2).bind
  intro tLo s3 h3
  have hdeps : Residual.deps m ⟨xo.col, fun p => some (tLo p)⟩ = idsOver m tLo := by
    ext d
    simp [Residual.deps, idsOver, eq_comm]
  refine .pure ⟨?_, fun _ => rfl⟩
  rw [hdeps]
  exact (h12.andThen h3 subset_rfl).of_ins Set.subset_union_left

theorem map_getD_range {α : Type} [Inhabited α] (as : List α) :
    (List.range as.length).map (fun p => as.getD p default) = as := by
  apply List.ext_getElem
  · simp
  · intro p _ h
    rw [List.getElem_map, List.getElem_range, List.getD_eq_getElem _ _ h]

/-- The final norms: tasks without a consumer, in the order of their ids. -/
theorem wires_finalNorm {w : WTensor} (hw : D.weights .outputNorm = some w) {xF : Cols}
    (hs : s.Bounded) (hr : ∀ p < m, ∃ d, r.dep p = some d ∧ s.Has d) :
    Wires (finalNorm D m r xF) s fun fq8 s' =>
      Stage s s' (r.deps m) {d | d ∈ (List.range m).map fq8} ∧
        (∀ d ∈ (List.range m).map fq8, s'.out d = 0) ∧ ((List.range m).map fq8).Nodup := by
  have hloop := CmdProg.wp_mapM_range (n := m)
    (f := fun p => do
      let w ← tensor D .outputNorm
      let tFn ← addRmsNorm D w (r.x p) (xF.col p) D.hp.nEmbd [(r.dep p).getD noTask]
      addActQ8 tFn (xF.col p) D.hp.nEmbd)
    (Plan.spec_mono GraphImpl.Passes (· ∈ budgetErrors))
    (fun k as s' => as.length = k ∧ Stage s s' {d | ∃ p < k, r.dep p = some d} {d | d ∈ as} ∧
      (∀ d ∈ as, s'.out d = 0 ∧ ¬ s.Has d) ∧ as.Pairwise (· < ·)) (s := s) ?_ ?_
  · apply Wires.bind hloop
    intro as s1 ⟨hlen, h1, hout, hlt⟩
    have hmap : (List.range m).map (fun p => as.getD p default) = as := by
      rw [← hlen]
      exact map_getD_range as
    refine .pure ?_
    rw [hmap]
    exact ⟨h1, fun d hd => (hout d hd).1, hlt.imp fun h => ne_of_lt h⟩
  · have hins : {d | ∃ p < 0, r.dep p = some d} = ∅ := by
      ext d
      simp
    have houts : {d : ℕ | d ∈ ([] : List ℕ)} = ∅ := by
      ext d
      simp
    refine ⟨rfl, ?_, by simp, .nil⟩
    rw [hins, houts]
    exact .refl hs
  · intro p as s1 hp ⟨hlen, h1, hout, hlt⟩
    obtain ⟨d, hd, hhas⟩ := hr p hp
    have hgetD : (r.dep p).getD noTask = d := by rw [hd]; rfl
    have hd1 : s1.Has d := h1.has d hhas
    apply wires_tensor hw
    rw [hgetD]
    apply (wires_addRmsNorm [d] h1.bounded (by simpa using hd1)).bind
    intro tFn s2 ⟨t, h2⟩
    apply (wires_addActQ8 h2.stage.bounded (h2.stage.out tFn rfl)).mono
    intro q s3 h3
    have hnew : ¬ s1.Has tFn := fun hh => lt_irrefl _ (h2.lt _ hh)
    have hq : ¬ s1.Has q := fun hh => lt_irrefl _ (h3.lt _ (h2.stage.has _ hh))
    refine ⟨by rw [List.length_append, hlen]; rfl, ?_, fun i hi => ?_, ?_⟩
    · have hset : {i | i ∈ as ++ [q]} = {i | i ∈ as} ∪ {q} := by
        ext i
        simp [or_comm]
      rw [hset]
      refine (h1.also (h2.stage.andThen h3.stage (by simp))).of_ins ?_
      intro i ⟨j, hj, hi⟩
      rcases Nat.lt_succ_iff_lt_or_eq.mp hj with hj | rfl
      · exact .inl ⟨j, hj, hi⟩
      · rw [hd, Option.some.injEq] at hi
        exact .inr (.inl (by simp [hi]))
    · rcases List.mem_append.mp hi with hi | hi
      · obtain ⟨h0, hnot⟩ := hout i hi
        have hi1 : s1.Has i := h1.out i hi
        have hid : i ∉ [d] := by
          intro hid
          rw [List.mem_singleton.mp hid] at hnot
          exact hnot hhas
        have hit : i ∉ [tFn] := by
          intro hit
          rw [List.mem_singleton.mp hit] at hi1
          exact hnew hi1
        rw [h3.out_eq hit, h2.out_eq hid]
        exact ⟨h0, hnot⟩
      · rw [List.mem_singleton.mp hi]
        refine ⟨h3.out_self h2.stage.bounded ?_, fun hh => hq (h1.has q hh)⟩
        intro e he
        rw [List.mem_singleton.mp he]
        exact h2.stage.out tFn rfl
    · rw [List.pairwise_append]
      refine ⟨hlt, List.pairwise_singleton _ _, fun i hi j hj => ?_⟩
      rw [List.mem_singleton.mp hj]
      exact h3.lt i (h2.stage.has i (h1.out i hi))

/-- The head: what it leaves has no consumer yet. -/
theorem wires_head {w : WTensor} (hw : D.weights .output = some w) (hu : w.Usable) (hm : 1 ≤ m)
    {headRowsz : UInt32} {xF : Cols} {fq8 : ℕ → ℕ} (hs : s.Bounded)
    (hhas : ∀ d ∈ (List.range m).map fq8, s.Has d)
    (hout : ∀ d ∈ (List.range m).map fq8, s.out d = 0) (hnd : ((List.range m).map fq8).Nodup) :
    Wires (head D m headRowsz xF fq8) s fun a s' =>
      Stage s s' ({d | d ∈ (List.range m).map fq8} \ {d | d ∈ a.2}) {d | d ∈ a.2} ∧
        (∀ d ∈ a.2, s'.out d = 0) ∧ a.2.Nodup := by
  rw [head]
  split_ifs
  · refine .pure ⟨⟨(Stage.refl hs).toLe, fun i hi => absurd hi.1 hi.2, hhas, fun i hi => .inl hi⟩,
      hout, hnd⟩
  · apply (wires_slotAlloc hs).bind
    intro lg s1 ⟨h1, _⟩
    apply wires_tensor hw
    apply (wires_addDotM hu hm h1.bounded fun d hd => h1.has d (hhas d hd)).bind
    intro sig s2 ⟨h2, hsig⟩
    refine .pure ⟨?_, fun d hd => ?_, List.nodup_singleton sig⟩
    · have hset : {d | d ∈ [sig]} = {sig} := by
        ext d
        simp
      rw [hset]
      exact (h1.andThen h2 (Set.empty_subset _)).of_ins fun d hd => .inr hd.1
    · rw [List.mem_singleton.mp hd]
      exact hsig

/-- The direct edges into the terminal. -/
theorem wires_terminal {α : Type} {a : α} {sigs : List ℕ} (hs : s.Bounded)
    (hhas : ∀ d ∈ sigs, s.Has d) (hout : ∀ d ∈ sigs, s.out d = 0) (hnd : sigs.Nodup) :
    Wires (do
      let term ← add rawSignal
      sigs.forM fun d => edge d term
      Pure.pure a) s fun _ s' => ∃ term, Stage s s' {d | d ∈ sigs} {term} ∧ s'.out term = 0 ∧
        s'.task term = some rawSignal ∧ s'.next = term + 1 ∧ s'.tight = true := by
  apply (wires_add hs ⟨by decide, by decide, by decide, by decide⟩).bind
  intro term s1 ⟨h1, hlt, hs1⟩
  have hterm : s1.Has term := h1.out term rfl
  have hloop := CmdProg.wp_forM (l := sigs) (f := fun d => edge d term)
    (Plan.spec_mono GraphImpl.Passes (· ∈ budgetErrors)) (fun done s' =>
      Stage s1 s' {d | d ∈ done} ∅ ∧ (∀ i, s'.out i = s1.out i + done.count i) ∧
        s'.task = s1.task ∧ s'.next = s1.next ∧ s'.tight = s1.tight) (s := s1) ?_ ?_
  · apply Wires.bind hloop
    intro _ s2 ⟨h2, hout2, htask2, hnext2, htight2⟩
    have hnew : ¬ s.Has term := fun hh => lt_irrefl _ (hlt term hh)
    refine .pure ⟨term, ?_, ?_, ?_, ?_, ?_⟩
    · have h := h1.seq {term} h2 subset_rfl Set.subset_union_right
      rw [Set.empty_union, Set.union_empty] at h
      exact h
    · rw [hout2, hs1, Plan.out_add, hs.out_eq_zero hnew, Nat.zero_add,
        List.count_eq_zero]
      exact fun hh => hnew (hhas term hh)
    · rw [htask2, hs1]
      simp
    · rw [hnext2, hs1, Plan.next_add]
    · rw [htight2, hs1]
      rfl
  · exact ⟨(Stage.refl h1.bounded).of_ins (by simp), by simp, rfl, rfl, rfl⟩
  · intro done d rest s2 hl ⟨h2, hout2, htask2, hnext2, htight2⟩
    have hd : d ∈ sigs := by
      rw [hl]
      simp
    have hcount : done.count d = 0 := by
      rw [List.count_eq_zero]
      rw [hl, List.nodup_append] at hnd
      intro hmem
      exact hnd.2.2 d hmem d (by simp) rfl
    have hzero : s2.out d = 0 := by
      rw [hout2, hcount, hs1, Plan.out_add, hout d hd]
    have hhas2 : s2.Has d := h2.has d (h1.has d (hhas d hd))
    refine ⟨hhas2, h2.has term hterm, hlt d (hhas d hd), by rw [hzero]; decide, ?_, fun i => ?_,
      htask2, hnext2, htight2⟩
    · refine (h2.andThen (Stage.link h2.bounded hhas2) (Set.empty_subset _)).of_ins ?_
      intro i hi
      rcases List.mem_append.mp hi with hi | hi
      · exact .inl hi
      · exact .inr (by simpa using hi)
    · rw [Plan.out_link, hout2, List.count_append, List.count_singleton, Nat.add_assoc]
      by_cases hdi : d = i <;> simp [hdi]

/-- The tensors of a pass, with the widths and heights a build needs. -/
structure Decoder.PassReady (D : Decoder) : Prop where
  layers : D.hp.nLayer ≠ 0
  layer : ∀ l < D.hp.nLayer, D.Ready l
  outputNorm : ∃ w, D.weights .outputNorm = some w
  output : ∃ w, D.weights .output = some w ∧ w.Usable

/-- A pass leaves its terminal alone without a consumer. -/
theorem wires_wire (hD : D.PassReady) (hm : 1 ≤ m) (hs : s.Bounded) :
    Wires (wire D m) s fun _ s' => ∃ term, Stage s s' ∅ {term} ∧ s'.out term = 0 ∧
      s'.task term = some rawSignal ∧ s'.next = term + 1 ∧ s'.tight = true := by
  rw [wire]
  have hcur : Wires (positions m fun _ => bufAlloc D.hp.nEmbd) s fun _ s' => Stage s s' ∅ ∅ := by
    apply (wires_positions (fun _ _ => ∅) (fun _ _ => ∅) hs fun _ _ _ h =>
      (wires_bufAlloc h.bounded).mono fun _ _ h => h.1).mono
    intro _ s1 h1
    simpa using h1
  apply hcur.bind
  intro xCur s1 h1
  have hloop := CmdProg.wp_foldlM_range (n := D.hp.nLayer.toNat) (a := ⟨xCur, fun _ => none⟩)
    (f := fun r l => layer D m (rowszOf D.o m) r (.ofNat l))
    (Plan.spec_mono GraphImpl.Passes (· ∈ budgetErrors)) (fun k r s' =>
      Stage s1 s' ∅ (r.deps m) ∧ (0 < k → ∀ p, (r.dep p).isSome = true)) (s := s1) ?_ ?_
  · apply Wires.bind hloop
    intro r s2 ⟨h2, hr⟩
    have hpos : 0 < D.hp.nLayer.toNat := by
      rw [Nat.pos_iff_ne_zero]
      intro hz
      exact hD.layers (UInt32.toNat_inj.mp hz)
    obtain ⟨wn, hwn⟩ := hD.outputNorm
    obtain ⟨wo, hwo, huse⟩ := hD.output
    have h12 := h1.andThen h2 (Set.empty_subset _)
    apply (wires_bufAllocCols h2.bounded).bind
    intro xF s3 ⟨h3, _⟩
    have h13 := h12.seq _ h3 subset_rfl Set.subset_union_right
    have hdep : ∀ p < m, ∃ d, r.dep p = some d ∧ s3.Has d := by
      intro p hp
      obtain ⟨d, hd⟩ := Option.isSome_iff_exists.mp (hr hpos p)
      exact ⟨d, hd, h13.out d (.inl ⟨p, hp, hd⟩)⟩
    apply (wires_finalNorm hwn h13.bounded hdep).bind
    intro fq8 s4 ⟨h4, hout4, hnd⟩
    have h14 := h13.andThen h4 (by simp)
    apply (wires_head hwo huse hm h14.bounded h4.out hout4 hnd).bind
    intro a s5 ⟨h5, hout5, hnd5⟩
    apply (wires_terminal h5.bounded h5.out hout5 hnd5).mono
    intro _ s6 ⟨term, h6, hout6, htask, hnext, htight⟩
    refine ⟨term, ?_, hout6, htask, hnext, htight⟩
    have h46 := h14.seq ({d | d ∈ (List.range m).map fq8} ∩ {d | d ∈ a.2}) h5
      Set.inter_subset_left (by rw [Set.sdiff_union_inter])
    exact (h46.andThen h6 (by simp)).of_ins (Set.empty_subset _)
  · refine ⟨?_, fun h => absurd h (lt_irrefl 0)⟩
    have hnone : Residual.deps m ⟨xCur, fun _ => none⟩ = ∅ := by
      ext d
      simp [Residual.deps]
    rw [hnone]
    exact .refl h1.bounded
  · intro k r s2 hk ⟨h2, _⟩
    have hl : UInt32.ofNat k < D.hp.nLayer := by
      rw [UInt32.lt_iff_toNat_lt, UInt32.toNat_ofNat_of_lt' (lt_trans hk D.hp.nLayer.toNat_lt)]
      exact hk
    apply Wires.mono (wires_layer (hD.layer _ hl) hm h2.bounded h2.out)
    intro r' s3 ⟨h3, hr'⟩
    exact ⟨(h2.andThen h3 subset_rfl).of_ins (Set.empty_subset _), fun _ => hr'⟩

end FastLlm
