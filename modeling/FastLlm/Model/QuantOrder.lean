import FastLlm.Model.Load
import FastLlm.Model.PassWiring
import FastLlm.Model.PlanGrowth

/-!
# Quantizations before the tiles

The int8 kernels read the appendices of the activation columns, which the graph does not know of:
that they are written in time rests on what each dot of the builder is made to wait for.  Stage by
stage, the columns of a dot are quantized by the tasks it waits for.  The router of an expert layer
is the exception, it waits for the norm alone; so the tiles of a pass come behind their
quantizations exactly when no router matrix is quantized (`load_quantsFirst_iff`).

## Main definitions

* `GraphImpl.QuantsFirst` — every column a quantized tile reads is quantized before it.
* `Decoder.PlainRouters` — the routers have float weights.
* `yields_attention`, `yields_ffnDense`, `yields_ffnMoe`, `yields_wire` — the pieces of a pass.
-/

namespace FastLlm
open Build Relation
open Plan (Ext)

variable {X : Set ℕ} {s : Plan}

/-! ## Norms and quantizations -/

/-- `id` quantizes the column of `n` floats at `x`; it has no consumer, and of the old tasks only
`deps` got one. -/
structure NewQuant (s s' : Plan) (deps : List ℕ) (x : Loc) (n : ℕ) (id : ℕ) : Prop where
  at_ : s'.At id (·.Quantizes x n)
  next_le : s.next ≤ id
  unfed : ∀ c, ¬ s'.Dep id c
  fed : ∀ p c, p < s.next → s'.Dep p c → s.Dep p c ∨ p ∈ deps

/-- An operation and the quantization of what it writes. -/
theorem yields_opThenQ8 {x : Build ℕ} {y : Loc} {n : UInt32} {deps : List ℕ}
    (hx : Yields x s fun id s' => Grown X True s s' ∧ NewOp s s' deps id) (hX : y.obj ∈ X)
    (hy : y.obj ≤ s.blocks) :
    Yields (x >>= fun id => addActQ8 id y n) s fun q s' => Grown X True s s' ∧
      NewQuant s s' deps y n.toNat q := by
  apply hx.skip
  intro id s1 h1 hid
  have hdeps : ∀ d ∈ [id], s1.Has d := by simpa using hid.has
  apply (yields_addActQ8 h1.new hid.has hX (hy.trans h1.blocks_le)).mono
  rintro q s2 ⟨h2, hg⟩
  refine ⟨hg, ⟨_, h2.task_self, actQ8_quantizes y n⟩, h1.next_le.trans h2.next_le,
    h2.unfed h1.new hdeps, fun p c hp hpc => ?_⟩
  rcases (h2.dep_iff p c).mp hpc with hold | ⟨hmem, -⟩
  · exact hid.fed p c hold
  · rw [List.mem_singleton.mp hmem] at hp
    exact absurd hid.next_le (Nat.not_le.mpr hp)

theorem yields_addRmsNorm {D : Decoder} {w : WTensor} {x y : Loc} {n : UInt32} (deps : List ℕ)
    (hs : s.Tidy) (hdeps : ∀ d ∈ deps, s.Has d) :
    Yields (addRmsNorm D w x y n deps) s fun id s' => Grown X True s s' ∧ NewOp s s' deps id :=
  yields_addAuxOp deps hs (by decide) hdeps

/-- A norm and the quantization of what it writes. -/
theorem yields_normQ8 {D : Decoder} {t : TensorName} {x y : Loc} {n : UInt32} (deps : List ℕ)
    (hs : s.Tidy) (hdeps : ∀ d ∈ deps, s.Has d) (hX : y.obj ∈ X) (hy : y.obj ≤ s.blocks) :
    Yields (do
      let w ← tensor D t
      let id ← addRmsNorm D w x y n deps
      addActQ8 id y n) s fun q s' => Grown X True s s' ∧ NewQuant s s' deps y n.toNat q := by
  apply yields_tensor
  intro w _
  exact yields_opThenQ8 (yields_addRmsNorm deps hs hdeps) hX hy

theorem yields_addSiluQ8 {gate up h : Loc} {n : UInt32} (deps : List ℕ) (hs : s.Tidy)
    (hdeps : ∀ d ∈ deps, s.Has d) (hX : h.obj ∈ X) (hh : h.obj ≤ s.blocks) :
    Yields (addSiluQ8 gate up h n deps) s fun q s' => Grown X True s s' ∧
      NewQuant s s' deps h n.toNat q :=
  yields_opThenQ8 (yields_addAuxOp deps hs (by decide) hdeps) hX hh

/-- The quantizations of the columns of all positions. -/
def Plan.Quantized (s : Plan) (m : ℕ) (c : Cols) (n : ℕ) (q : ℕ → ℕ) : Prop :=
  ∀ p < m, s.At (q p) (·.Quantizes (c.col p) n)

theorem Plan.Quantized.ext {m n : ℕ} {c : Cols} {q : ℕ → ℕ} {s' : Plan}
    (h : s.Quantized m c n q) (he : Ext s s') : s'.Quantized m c n q :=
  fun p hp => he.at_of (h p hp)

/-- A quantization for every position. -/
theorem yields_quants {f : ℕ → Build ℕ} {m : ℕ} {c : Cols} {n : ℕ} {deps : ℕ → List ℕ}
    (hs : s.Tidy) (h : ∀ p s1, p < m → Ext s s1 → Yields (f p) s1 fun q s2 => Grown X True s1 s2 ∧
      NewQuant s1 s2 (deps p) (c.col p) n q) :
    Yields (positions m f) s fun q s' => Grown X True s s' ∧ s'.Quantized m c n q := by
  apply yields_positions_true (fun p q s' => s'.At q (·.Quantizes (c.col p) n))
    (fun _ _ _ _ he h => he.at_of h) hs
  intro p s1 hp h1
  exact (h p s1 hp h1).mono fun q s2 h2 => ⟨h2.1, h2.2.at_⟩

/-! ## Attention -/

section
variable (D : Decoder) {m : ℕ} {l : UInt32} {r : Residual}

/-- What wrote the residual. -/
def Residual.In (r : Residual) (m : ℕ) (s : Plan) : Prop := ∀ p < m, ∀ d ∈ (r.dep p).toList, s.Has d

theorem Residual.In.ext {r : Residual} {s' : Plan} (h : r.In m s) (he : Ext s s') : r.In m s' :=
  fun p hp d hd => he.has (h p hp d hd)

theorem yields_stageA {xn : Cols} (hs : s.Tidy) (hr : r.In m s) (hX : xn.base.obj ∈ X)
    (hxn : xn.base.obj ≤ s.blocks) :
    Yields (stageA D l m r xn) s fun aq s' => Grown X True s s' ∧
      s'.Quantized m xn D.hp.nEmbd.toNat aq :=
  yields_quants hs fun p _ hp h1 => yields_normQ8 _ h1.new (hr.ext h1 p hp) hX
    (hxn.trans h1.blocks_le)

theorem yields_stageC {kva ckv : Cols} {skva : ℕ → ℕ} (hs : s.Tidy) (hk : ∀ p < m, s.Has (skva p))
    (hX : ckv.base.obj ∈ X) (hckv : ckv.base.obj ≤ s.blocks) :
    Yields (stageC D l m kva ckv skva) s fun kq8 s' => Grown X True s s' ∧
      s'.Quantized m ckv D.hp.kvLora.toNat kq8 :=
  yields_quants hs fun p _ hp h1 => yields_normQ8 [skva p] h1.new
    (by simpa using h1.has (hk p hp)) hX (hckv.trans h1.blocks_le)

/-- The heads of a position. -/
theorem yields_addHeads {p : ℕ} {q ctx scr : Loc} (deps : List ℕ) (hs : s.Tidy)
    (hdeps : ∀ d ∈ deps, s.Has d) :
    Yields (addHeads D l p q ctx scr deps) s fun id s' => Grown X True s s' ∧ s'.Has id := by
  apply (yields_mapM_ids hs fun _ s1 _ h1 =>
    (yields_addAuxOp deps h1.new (by decide) fun d hd => h1.has (hdeps d hd)).mono
      fun _ _ h => ⟨h.1, h.2.has⟩).skip
  intro heads s1 h1 hheads
  apply (yields_fanIn heads h1.new hheads).mono
  intro id s2 h2
  exact ⟨h2.plain h1.new hheads (by decide), Plan.has_of_task h2.task_self⟩

theorem yields_appendChain {appCum : Option ℕ} {tApp : ℕ} (hs : s.Tidy) (htApp : s.Has tApp)
    (hcum : ∀ a ∈ appCum, s.Has a) :
    Yields (appendChain appCum tApp) s fun id s' => Grown X True s s' ∧ s'.Has id := by
  cases appCum with
  | none => exact .pure ⟨.refl hs, htApp⟩
  | some a =>
    have hmem : ∀ d ∈ [a, tApp], s.Has d := by simp [htApp, hcum a rfl]
    apply (yields_fanIn [a, tApp] hs hmem).mono
    intro id s1 h1
    exact ⟨h1.plain hs hmem (by decide), Plan.has_of_task h1.task_self⟩

theorem yields_stageEAt {qb kva kvb ctx : Cols} {sq skva skvb : ℕ → ℕ} {p : ℕ} {appCum : Option ℕ}
    (hs : s.Tidy) (hsq : s.Has (sq p)) (hskva : s.Has (skva p)) (hskvb : s.Has (skvb p))
    (hcum : ∀ a ∈ appCum, s.Has a) (hX : ctx.base.obj ∈ X) (hctx : ctx.base.obj ≤ s.blocks) :
    Yields (stageEAt D l qb kva kvb ctx sq skva skvb p appCum) s fun a s' => Grown X True s s' ∧
      s'.Has a.1 ∧ s'.At a.2 (·.Quantizes (ctx.col p) (D.hp.nHead * D.hp.dv).toNat) := by
  apply (yields_addAuxOp [sq p] hs (by decide) (by simpa using hsq)).skip
  intro tRq s1 h1 hq
  apply (yields_addAuxOp [skva p] h1.new (by decide) (by simpa using h1.has hskva)).skip
  intro tRk s2 h2 hk
  have h12 := h1.trans h2
  apply (yields_addAuxOp [skvb p, tRk] h2.new (by decide)
    (by simp [h12.has hskvb, hk.has])).skip
  intro tApp s3 h3 happ
  have h13 := h12.trans h3
  apply (yields_appendChain h3.new happ.has fun a ha => h13.has (hcum a ha)).skip
  intro cum s4 h4 hcum4
  apply (yields_alloc h4.new).skip
  intro scr s5 h5 _
  have hdeps : ∀ d ∈ [tRq, cum], s5.Has d := by
    simp [h5.has hcum4, h5.has (h4.has (h3.has (h2.has hq.has)))]
  apply (yields_addHeads D [tRq, cum] h5.new hdeps).skip
  intro tHeads s6 h6 hheads
  have h16 := (h13.trans h4).trans (h5.trans h6)
  apply (yields_addActQ8 (x := ctx.col p) h6.new hheads hX (hctx.trans h16.blocks_le)).bind
  rintro cq8 s7 ⟨h7, hg⟩
  exact .pure ⟨hg, hg.has (h6.has (h5.has hcum4)), _, h7.task_self, actQ8_quantizes _ _⟩

theorem yields_stageE {qb kva kvb ctx : Cols} {sq skva skvb : ℕ → ℕ} (hs : s.Tidy)
    (hsq : ∀ p < m, s.Has (sq p)) (hskva : ∀ p < m, s.Has (skva p))
    (hskvb : ∀ p < m, s.Has (skvb p)) (hX : ctx.base.obj ∈ X) (hctx : ctx.base.obj ≤ s.blocks) :
    Yields (stageE D l m qb kva kvb ctx sq skva skvb) s fun cq8 s' => Grown X True s s' ∧
      s'.Quantized m ctx (D.hp.nHead * D.hp.dv).toNat cq8 := by
  have hloop := CmdProg.wp_foldlM_range (n := m) (a := ((none, []) : Option ℕ × List ℕ))
    (f := fun (s : Option ℕ × List ℕ) p => do
      let r ← stageEAt D l qb kva kvb ctx sq skva skvb p s.1
      Pure.pure (some r.1, s.2 ++ [r.2]))
    (Plan.spec_mono (fun _ => True) fun _ => True) (fun k a s' => Grown X True s s' ∧
      (∀ c ∈ a.1, s'.Has c) ∧ a.2.length = k ∧ ∀ p < k,
        s'.At (a.2.getD p default) (·.Quantizes (ctx.col p) (D.hp.nHead * D.hp.dv).toNat))
    (s := s) ?_ ?_
  · apply Yields.bind hloop
    rintro a s1 ⟨h1, -, -, hq⟩
    exact .pure ⟨h1, hq⟩
  · exact ⟨.refl hs, by simp, rfl, fun p hp => absurd hp (Nat.not_lt_zero p)⟩
  · rintro k a s1 hk ⟨h1, hcum, hlen, hq⟩
    have hround : Yields (stageEAt D l qb kva kvb ctx sq skva skvb k a.1) s1 fun b s2 =>
        Grown X True s1 s2 ∧ s2.Has b.1 ∧
          s2.At b.2 (·.Quantizes (ctx.col k) (D.hp.nHead * D.hp.dv).toNat) :=
      yields_stageEAt D h1.new (h1.has (hsq k hk)) (h1.has (hskva k hk)) (h1.has (hskvb k hk)) hcum
        hX (hctx.trans h1.blocks_le)
    apply Yields.bind hround
    rintro b s2 ⟨h2, hb1, hb2⟩
    refine ⟨h1.skip h2, by simpa using hb1, by simp [hlen], fun p hp => ?_⟩
    rcases Nat.lt_succ_iff_lt_or_eq.mp hp with hlt | rfl
    · rw [List.getD_append _ _ _ _ (by omega)]
      exact h2.at_of (hq p hlt)
    · rw [List.getD_append_right _ _ _ _ (by omega), hlen, Nat.sub_self]
      exact hb2

/-- What the FFN of a layer finds: its columns are quantized, but not before the norms. -/
structure FfnIn.Fed (i : FfnIn) (m n : ℕ) (s : Plan) : Prop where
  tx2 : ∀ p < m, s.Has (i.tx2 p)
  fn : ∀ p < m, s.Has (i.fn p)
  plain : ∀ p < m, s.NoQuant i.xf.base.obj (i.fn p)
  quants : s.Quantized m i.xf n i.fq8

theorem FfnIn.Fed.ext {i : FfnIn} {n : ℕ} {s' : Plan} (h : i.Fed m n s) (he : Ext s s') :
    i.Fed m n s' where
  tx2 p hp := he.has (h.tx2 p hp)
  fn p hp := he.has (h.fn p hp)
  plain p hp := he.noQuant (h.fn p hp) (h.plain p hp)
  quants := h.quants.ext he

/-- What comes from outside stage G has no quantization of `xf` before it. -/
theorem yields_stageG {ao x2 xf : Cols} {so : ℕ → ℕ} (hs : s.Tidy) (hso : ∀ p < m, s.Has (so p))
    (hr : r.In m s) (hX : xf.base.obj ∈ X) (hxf : xf.base.obj ≤ s.blocks)
    (hno : ∀ i, s.NoQuant xf.base.obj i) :
    Yields (stageG D l m r ao x2 xf so) s fun g s' => Grown X True s s' ∧
      FfnIn.Fed ⟨x2, xf, fun p => (g p).1, fun p => (g p).2.1, fun p => (g p).2.2⟩ m
        D.hp.nEmbd.toNat s' := by
  have hpos : Yields (stageG D l m r ao x2 xf so) s fun g s' => Grown X True s s' ∧
      ∀ p < m, s'.Has (g p).1 ∧ s'.Has (g p).2.1 ∧ s'.NoQuant xf.base.obj (g p).2.1 ∧
        s'.At (g p).2.2 (·.Quantizes (xf.col p) D.hp.nEmbd.toNat) := by
    apply yields_positions_true (fun p (a : ℕ × ℕ × ℕ) s' => s'.Has a.1 ∧ s'.Has a.2.1 ∧
      s'.NoQuant xf.base.obj a.2.1 ∧ s'.At a.2.2 (·.Quantizes (xf.col p) D.hp.nEmbd.toNat))
      (fun _ _ _ _ he h => ⟨he.has h.1, he.has h.2.1, he.noQuant h.2.1 h.2.2.1, he.at_of h.2.2.2⟩)
      hs
    intro p s1 hp h1
    have hdeps : ∀ d ∈ so p :: (r.dep p).toList, s.Has d := by
      intro d hd
      rcases List.mem_cons.mp hd with rfl | hd
      · exact hso p hp
      · exact hr p hp d hd
    apply (yields_addAuxOp _ h1.new (by decide) fun d hd => h1.has (hdeps d hd)).skip
    intro tx2 s2 h2 htx2
    apply yields_tensor
    intro w _
    apply (yields_addRmsNorm [tx2] h2.new (by simpa using htx2.has)).skip
    intro fn s3 h3 hfn
    have h13 := (h1.trans h2).trans h3
    apply (yields_addActQ8 (x := xf.col p) h3.new hfn.has hX (hxf.trans h13.blocks_le)).bind
    rintro fq8 s4 ⟨h4, hg⟩
    have hplain : s3.NoQuant xf.base.obj fn := by
      apply hfn.noQuant
      simp only [List.mem_singleton, forall_eq]
      exact htx2.noQuant _ fun d hd => h1.noQuant (hdeps d hd) (hno d)
    exact .pure ⟨hg, hg.has (h3.has htx2.has), hg.has hfn.has, hg.noQuant hfn.has hplain, _,
      h4.task_self, actQ8_quantizes _ _⟩
  apply hpos.mono
  rintro g s' ⟨h, hg⟩
  exact ⟨h, fun p hp => (hg p hp).1, fun p hp => (hg p hp).2.1, fun p hp => (hg p hp).2.2.1,
    fun p hp => (hg p hp).2.2.2⟩

end

/-- Nothing in block `o` is quantized yet. -/
def Plan.Free (s : Plan) (o : ℕ) : Prop :=
  ∀ q t, s.task q = some t → t.kind = .ACT_Q8 → t.x.obj ≠ o

theorem Plan.Free.noQuant {o : ℕ} (h : s.Free o) (i : ℕ) : s.NoQuant o i :=
  fun q t ht hk hx _ => h q t ht hk hx

theorem Plan.Free.grown {o : ℕ} {c : Prop} {s' : Plan} (h : s.Free o)
    (hg : Grown {j | j ≠ o} c s s') : s'.Free o := by
  intro q t ht hk
  by_cases hlt : q < s.next
  · exact h q t ((hg.task_eq q hlt).symm.trans ht) hk
  · exact hg.quants q t (Nat.not_lt.mp hlt) ht hk

/-- A piece without tiles in front, which quantizes outside block `o`. -/
theorem Yields.skipFree {α β : Type} {o : ℕ} {c : Prop} {x : Build α} {f : α → Build β}
    {V : α → Plan → Prop} {W : β → Plan → Prop} (hfree : s.Free o)
    (hx : Yields x s fun a s1 => Grown {j | j ≠ o} True s s1 ∧ V a s1)
    (hf : ∀ a s1, Ext s s1 → s1.Free o → V a s1 →
      Yields (f a) s1 fun b s2 => Grown Set.univ c s1 s2 ∧ W b s2) :
    Yields (x >>= f) s fun b s2 => Grown Set.univ c s s2 ∧ W b s2 :=
  hx.bind fun a s1 h1 => (hf a s1 h1.1.toExt (hfree.grown h1.1) h1.2).mono fun _ _ h2 =>
    ⟨(h1.1.mono (Set.subset_univ _)).skip h2.1, h2.2⟩

/-- A new buffer is free. -/
theorem yields_bufAllocCols_free {n : UInt32} {m : ℕ} (hs : s.Tidy) :
    Yields (bufAllocCols n m) s fun c s' => Grown Set.univ True s s' ∧
      s.blocks < c.base.obj ∧ c.base.obj ≤ s'.blocks ∧ s'.Free c.base.obj := by
  apply (yields_bufAllocCols (X := ∅) hs).mono
  rintro c s1 ⟨h1, hlt, hle⟩
  refine ⟨h1.mono (Set.empty_subset _), hlt, hle, fun q t ht hk => ?_⟩
  by_cases hq : q < s.next
  · exact ((hs.quant q t ((h1.task_eq q hq).symm.trans ht) hk).trans_lt hlt).ne
  · exact (h1.quants q t (Nat.not_lt.mp hq) ht hk).elim

section
variable (D : Decoder) {m : ℕ} {l fs : UInt32} {r : Residual}

/-- The tensors of layer `l` have the shapes their names call for. -/
def Decoder.Shaped (D : Decoder) (l fs : UInt32) : Prop :=
  ∀ c ∈ D.layerTensors l, ∀ w, D.weights (.blk l c) = some w → (w.rows, w.cols) = D.hp.shape fs c

theorem Decoder.Shaped.cols {D : Decoder} (h : D.Shaped l fs) {c : LayerTensor}
    (hc : c ∈ D.layerTensors l) {w : WTensor} (hw : D.weights (.blk l c) = some w) :
    w.cols = (D.hp.shape fs c).2 :=
  congrArg Prod.snd (h c hc w hw)

theorem Decoder.common_layer (c : LayerTensor) (hc : c ∈ LayerTensor.common) :
    c ∈ D.layerTensors l :=
  List.mem_append_left _ hc

/-- The stages of the attention come behind their quantizations. -/
theorem yields_attention {rowsz : UInt32} (hD : D.Shaped l fs) (hs : s.Tidy) (hr : r.In m s) :
    Yields (attention D l m rowsz r) s fun i s' => Grown Set.univ True s s' ∧
      i.Fed m D.hp.nEmbd.toNat s' ∧ i.xf.base.obj ≤ s'.blocks := by
  apply (yields_bufAllocCols hs).skip
  rintro xn s1 h1 ⟨-, hxn⟩
  apply (yields_slotAllocCols h1.new).skip
  intro qb s2 h2 _
  apply (yields_slotAllocCols h2.new).skip
  intro kva s3 h3 _
  apply (yields_bufAllocCols h3.new).skip
  rintro ckv s4 h4 ⟨-, hckv⟩
  apply (yields_slotAllocCols h4.new).skip
  intro kvb s5 h5 _
  apply (yields_bufAllocCols h5.new).skip
  rintro ctx s6 h6 ⟨-, hctx⟩
  apply (yields_slotAllocCols h6.new).skip
  intro ao s7 h7 _
  apply (yields_bufAllocCols h7.new).skip
  intro x2 s8 h8 _
  apply (yields_bufAllocCols_free h8.new).skip
  rintro xf s9 h9 ⟨hlt, hxf, hfree⟩
  -- the other buffers lie below `xf`
  have h68 := (h7.trans h8).blocks_le
  have h48 := (h5.trans h6).blocks_le.trans h68
  have h18 := ((h2.trans h3).trans h4).blocks_le.trans h48
  have hxn8 := hxn.trans h18
  have hckv8 := hckv.trans h48
  have hctx8 := hctx.trans h68
  have hr9 := hr.ext ((((h1.trans h2).trans (h3.trans h4)).trans ((h5.trans h6).trans
    (h7.trans h8))).trans h9)
  have h89 := h9.blocks_le
  apply Yields.skipFree hfree (yields_stageA D h9.new hr9 (hxn8.trans_lt hlt).ne (hxn8.trans h89))
  intro aq s10 h10 hfree10 haq
  apply yields_tensor
  intro wq hwq
  have hcq : wq.cols = D.hp.nEmbd := hD.cols (D.common_layer _ (by decide)) hwq
  apply Yields.skipFree hfree10 (yields_stageDot h10.new (by rw [hcq]; exact haq))
  intro sq s11 h11 hfree11 hsq
  apply yields_tensor
  intro wkva hwkva
  have hckva : wkva.cols = D.hp.nEmbd := hD.cols (D.common_layer _ (by decide)) hwkva
  apply Yields.skipFree hfree11 (yields_stageDot h11.new (by rw [hckva]; exact haq.ext h11))
  intro skva s12 h12 hfree12 hskva
  have h912 := (h10.trans h11).trans h12
  apply Yields.skipFree hfree12 (yields_stageC D h12.new hskva (hckv8.trans_lt hlt).ne
    ((hckv8.trans h89).trans h912.blocks_le))
  intro kq8 s13 h13 hfree13 hkq8
  apply yields_tensor
  intro wkvb hwkvb
  have hckvb : wkvb.cols = D.hp.kvLora := hD.cols (D.common_layer _ (by decide)) hwkvb
  apply Yields.skipFree hfree13 (yields_stageDot h13.new (by rw [hckvb]; exact hkq8))
  intro skvb s14 h14 hfree14 hskvb
  have h1214 := h13.trans h14
  apply Yields.skipFree hfree14 (yields_stageE D h14.new
    (fun p hp => (h12.trans h1214).has (hsq p hp)) (fun p hp => h1214.has (hskva p hp)) hskvb
    (hctx8.trans_lt hlt).ne ((hctx8.trans h89).trans (h912.trans h1214).blocks_le))
  intro cq8 s15 h15 hfree15 hcq8
  apply yields_tensor
  intro wo hwo
  have hco : wo.cols = D.hp.nHead * D.hp.dv := hD.cols (D.common_layer _ (by decide)) hwo
  apply Yields.skipFree hfree15 (yields_stageDot h15.new (by rw [hco]; exact hcq8))
  intro so s16 h16 hfree16 hso
  have h916 := ((h912.trans h1214).trans h15).trans h16
  apply (yields_stageG D h16.new hso (hr9.ext h916) (Set.mem_univ _) (hxf.trans h916.blocks_le)
    hfree16.noQuant).skip
  intro g s17 h17 hfed
  exact .pure ⟨.refl h17.new, hfed, (hxf.trans h916.blocks_le).trans h17.blocks_le⟩

/-! ## FFN -/

/-- Gate, up and down projections come behind their quantizations. -/
theorem yields_gateUpDown {wg wu wd : LayerTensor} {rowsz n : UInt32} {i : FfnIn}
    {gg uu hh dd : Cols} (hs : s.Tidy) (hi : i.Fed m D.hp.nEmbd.toNat s)
    (hg : ∀ w, D.weights (.blk l wg) = some w → w.cols = D.hp.nEmbd)
    (hu : ∀ w, D.weights (.blk l wu) = some w → w.cols = D.hp.nEmbd)
    (hd : ∀ w, D.weights (.blk l wd) = some w → w.cols = n) (hhh : hh.base.obj ≤ s.blocks) :
    Yields (gateUpDown D wg wu wd l m rowsz n i gg uu hh dd) s fun sd s' =>
      Grown Set.univ True s s' ∧ ∀ p < m, s'.Has (sd p) := by
  apply yields_tensor
  intro w hw
  apply (yields_stageDot hs (by rw [hg w hw]; exact hi.quants)).skip
  intro sg s1 h1 hsg
  apply yields_tensor
  intro w' hw'
  apply (yields_stageDot h1.new (by rw [hu w' hw']; exact hi.quants.ext h1)).skip
  intro su s2 h2 hsu
  have hquants : Yields (positions m fun p => addSiluQ8 (gg.col p) (uu.col p) (hh.col p) n
      [sg p, su p]) s2 fun q s' => Grown Set.univ True s2 s' ∧ s'.Quantized m hh n.toNat q := by
    apply yields_quants h2.new
    intro p s3 hp h3
    have hdeps : ∀ d ∈ [sg p, su p], s3.Has d := by
      simp [h3.has (h2.has (hsg p hp)), h3.has (hsu p hp)]
    exact yields_addSiluQ8 _ h3.new hdeps (Set.mem_univ _)
      ((hhh.trans (h1.trans h2).blocks_le).trans h3.blocks_le)
  apply hquants.skip
  intro hq8 s3 h3 hhq8
  apply yields_tensor
  intro w'' hw''
  exact yields_stageDot h3.new (by rw [hd w'' hw'']; exact hhq8)

theorem yields_ffnDense {rowsz : UInt32} {i : FfnIn} {xo : Cols} (hD : D.Shaped l fs)
    (hl : l < D.hp.nDenseLead) (hs : s.Tidy) (hi : i.Fed m D.hp.nEmbd.toNat s) :
    Yields (ffnDense D l m rowsz i xo) s fun t s' =>
      Grown Set.univ True s s' ∧ ∀ p < m, s'.Has (t p) := by
  have hmem (c : LayerTensor) (hc : c ∈ LayerTensor.dense) : c ∈ D.layerTensors l := by
    rw [Decoder.layerTensors, if_pos hl]
    exact List.mem_append_right _ hc
  apply (yields_slotAllocCols hs).skip
  intro gg s1 h1 _
  apply (yields_slotAllocCols h1.new).skip
  intro uu s2 h2 _
  apply (yields_bufAllocCols h2.new).skip
  rintro hh s3 h3 ⟨-, hhh⟩
  apply (yields_slotAllocCols h3.new).skip
  intro dd s4 h4 _
  have hi4 := hi.ext ((h1.trans h2).trans (h3.trans h4))
  apply (yields_gateUpDown D h4.new hi4 (fun w hw => hD.cols (hmem .ffnGate (by decide)) hw)
    (fun w hw => hD.cols (hmem .ffnUp (by decide)) hw)
    (fun w hw => hD.cols (hmem .ffnDown (by decide)) hw) (hhh.trans h4.blocks_le)).skip
  intro sd s5 h5 hsd
  apply yields_positions_true (fun _ id s' => s'.Has id) (fun _ _ _ _ he h => he.has h) h5.new
  intro p s6 hp h6
  apply (yields_addAuxOp [sd p, i.tx2 p] h6.new (by decide)
    (by simp [h6.has (hsd p hp), h6.has (h5.has (hi4.tx2 p hp))])).mono
  intro id s7 h7
  exact ⟨h7.1, h7.2.has⟩

/-- The router of layer `l` is not quantized, or has no rows. -/
def Decoder.PlainRouter (D : Decoder) (l : UInt32) : Prop :=
  ∀ w, D.weights (.blk l .ffnGateInp) = some w → ¬ w.Quantized

/-- The router waits for the norm, which no quantization of the column precedes. -/
theorem yields_addRouter {rowsz : UInt32} {i : FfnIn} {p : ℕ} (hs : s.Tidy)
    (hi : i.Fed m D.hp.nEmbd.toNat s) (hp : p < m) :
    Yields (addRouter D l rowsz i p) s fun rt s' =>
      Grown Set.univ (D.PlainRouter l) s s' ∧ s'.Has rt.tRt := by
  apply (yields_slotAlloc hs).skip
  intro rlog s1 h1 _
  have hi1 := hi.ext h1
  apply yields_tensor
  intro w hw
  have hiff : (w.Quantized → s1.Supplies [i.fn p] (i.xf.col p) w.cols.toNat) ↔
      D.PlainRouter l := by
    constructor
    · intro h v hv hquant
      obtain rfl : w = v := Option.some.inj (hw.symm.trans hv)
      obtain ⟨q, ⟨t, ht, hqt⟩, d, hd, hpath⟩ := h hquant
      rw [List.mem_singleton.mp hd] at hpath
      exact hi1.plain p hp q t ht hqt.kind (by rw [hqt.x_eq]; rfl) hpath
    · exact fun h hquant => absurd hquant (h w hw)
  have hdot : Yields (addDot D.o w (i.xf.col p) rlog [i.fn p] rowsz none) s1 fun id s' =>
      Grown Set.univ (D.PlainRouter l) s1 s' ∧ s'.Has id :=
    (yields_addDot [i.fn p] h1.new (by simpa using hi1.fn p hp)).mono fun _ _ h =>
      ⟨h.1.congr hiff, h.2.1⟩
  apply hdot.last
  intro tRl s2 h2 hRl
  apply (yields_alloc h2.new).skip
  intro ids s3 h3 _
  apply (yields_alloc h3.new).skip
  intro gate s4 h4 _
  apply (yields_addAuxOp [tRl] h4.new (by decide)
    (by simpa using h4.has (h3.has hRl))).skip
  intro tRt s5 h5 hRt
  exact .pure ⟨.refl h5.new, hRt.has⟩

/-- One expert, for a position whose column is quantized by one of `deps`. -/
theorem yields_addExpert {wge wue wde : WTensor} {rowsz : UInt32} {xf de ids : Loc}
    {deps : List ℕ} {k : ℕ} (hs : s.Tidy) (hdeps : ∀ d ∈ deps, s.Has d)
    (hg : s.Supplies deps xf wge.cols.toNat) (hu : s.Supplies deps xf wue.cols.toNat)
    (hd : wde.cols = D.hp.nFfExp) :
    Yields (addExpert D wge wue wde rowsz xf de ids deps k) s fun id s' =>
      Grown Set.univ True s s' ∧ s'.Has id := by
  apply (yields_slotAlloc hs).skip
  intro ge s1 h1 _
  apply (yields_slotAlloc h1.new).skip
  intro ue s2 h2 _
  have h12 := h1.trans h2
  apply (yields_addDot_fed deps h2.new (fun d hd => h12.has (hdeps d hd))
    ((h12.supplies_iff hdeps _ _).mpr hg)).skip
  rintro tGe s3 h3 ⟨hGe, -⟩
  have h13 := h12.trans h3
  apply (yields_addDot_fed deps h3.new (fun d hd => h13.has (hdeps d hd))
    ((h13.supplies_iff hdeps _ _).mpr hu)).skip
  rintro tUe s4 h4 ⟨hUe, -⟩
  apply (yields_alloc h4.new).skip
  rintro he s5 h5 ⟨-, hhe, -⟩
  apply (yields_addSiluQ8 [tGe, tUe] h5.new (by simp [h5.has (h4.has hGe), h5.has hUe])
    (Set.mem_univ _) hhe).skip
  intro tHq8 s6 h6 hq8
  apply (yields_addDot_fed [tHq8] h6.new (by simpa using hq8.at_.has)
    (by rw [hd]; exact hq8.at_.supplies (List.mem_singleton_self _))).mono
  intro id s7 h7
  exact ⟨h7.1, h7.2.1⟩

/-- The experts of position `p`. -/
theorem yields_addExperts {wge wue wde : WTensor} {rowsz : UInt32} {i : FfnIn} {ids : Loc}
    {tRt p : ℕ} (hs : s.Tidy) (hi : i.Fed m D.hp.nEmbd.toNat s) (hp : p < m) (ht : s.Has tRt)
    (hg : wge.cols = D.hp.nEmbd) (hu : wue.cols = D.hp.nEmbd) (hd : wde.cols = D.hp.nFfExp) :
    Yields (addExperts D wge wue wde rowsz m i ids tRt p) s fun a s' =>
      Grown Set.univ True s s' ∧ s'.Has a.1 := by
  apply (yields_slotAlloc hs).skip
  intro de s1 h1 _
  have hquant := (hi.ext h1).quants p hp
  have hdeps : ∀ d ∈ [i.fq8 p, tRt], s1.Has d := by simp [hquant.has, h1.has ht]
  have hsup : s1.Supplies [i.fq8 p, tRt] (i.xf.col p) D.hp.nEmbd.toNat :=
    hquant.supplies List.mem_cons_self
  have hone (k : ℕ) (s2 : Plan) (h2 : Ext s1 s2) :
      Yields (addExpert D wge wue wde rowsz (i.xf.col p) de ids [i.fq8 p, tRt] k) s2 fun id s' =>
        Grown Set.univ True s2 s' ∧ s'.Has id := by
    have hsup2 := (h2.supplies_iff hdeps (i.xf.col p) D.hp.nEmbd.toNat).mpr hsup
    exact yields_addExpert D h2.new (fun d hd => h2.has (hdeps d hd)) (by rw [hg]; exact hsup2)
      (by rw [hu]; exact hsup2) hd
  apply (yields_mapM_ids h1.new fun k s2 _ h2 => hone k s2 h2).skip
  intro downs s2 h2 hdowns
  apply (yields_fanIn downs h2.new hdowns).bind
  intro sig s3 h3
  exact .pure ⟨h3.plain h2.new hdowns (by decide), Plan.has_of_task h3.task_self⟩

theorem yields_expertGate {tRt : ℕ → ℕ} (hs : s.Tidy) (ht : ∀ p < m, s.Has (tRt p)) :
    Yields (expertGate D m tRt) s fun gate s' =>
      Grown Set.univ True s s' ∧ ∀ p < m, s'.Has (gate p) := by
  rw [expertGate]
  split_ifs
  · have hmem : ∀ d ∈ (List.range m).map tRt, s.Has d := by
      intro d hd
      obtain ⟨p, hp, rfl⟩ := List.mem_map.mp hd
      exact ht p (List.mem_range.mp hp)
    apply (yields_fanIn _ hs hmem).bind
    intro sig s1 h1
    exact .pure ⟨h1.plain hs hmem (by decide), fun _ _ => Plan.has_of_task h1.task_self⟩
  · exact .pure ⟨.refl hs, ht⟩

/-- An expert layer is in order iff its router is. -/
theorem yields_ffnMoe {rowsz : UInt32} {i : FfnIn} {xo : Cols} (hD : D.Shaped l fs)
    (hl : ¬ l < D.hp.nDenseLead) (hm : 1 ≤ m) (hs : s.Tidy) (hi : i.Fed m D.hp.nEmbd.toNat s) :
    Yields (ffnMoe D l m rowsz i xo) s fun t s' =>
      Grown Set.univ (D.PlainRouter l) s s' ∧ ∀ p < m, s'.Has (t p) := by
  have hmem (c : LayerTensor) (hc : c ∈ LayerTensor.moe) : c ∈ D.layerTensors l := by
    rw [Decoder.layerTensors, if_neg hl]
    exact List.mem_append_right _ hc
  apply yields_tensor
  intro wge hwge
  apply yields_tensor
  intro wue hwue
  apply yields_tensor
  intro wde hwde
  have hrouters : Yields (positions m (addRouter D l rowsz i)) s fun rt s' =>
      Grown Set.univ (D.PlainRouter l) s s' ∧ ∀ p < m, s'.Has (rt p).tRt := by
    apply (yields_positions (fun _ => D.PlainRouter l) (fun _ (rt : Routed) s' => s'.Has rt.tRt)
      (fun _ _ _ _ he h => he.has h) hs fun p s1 hp h1 =>
        yields_addRouter D h1.new (hi.ext h1) hp).mono
    rintro rt s1 ⟨h1, hrt⟩
    exact ⟨h1.congr ⟨fun h => h 0 hm, fun h _ _ => h⟩, hrt⟩
  apply hrouters.last
  intro rt s1 h1 hrt
  apply (yields_expertGate D h1.new hrt).skip
  intro gate s2 h2 hgate
  have hi2 := hi.ext (h1.trans h2)
  have hexperts : Yields (positions m fun p =>
      addExperts D wge wue wde rowsz m i (rt p).ids (gate p) p) s2 fun rdown s' =>
        Grown Set.univ True s2 s' ∧ ∀ p < m, s'.Has (rdown p).1 := by
    apply yields_positions_true (fun _ (a : ℕ × Loc) s' => s'.Has a.1)
      (fun _ _ _ _ he h => he.has h) h2.new
    intro p s3 hp h3
    exact yields_addExperts D h3.new (hi2.ext h3) hp (h3.has (hgate p hp))
      (hD.cols (hmem .ffnGateExps (by decide)) hwge)
      (hD.cols (hmem .ffnUpExps (by decide)) hwue)
      (hD.cols (hmem .ffnDownExps (by decide)) hwde)
  apply hexperts.skip
  intro rdown s3 h3 hrdown
  apply yields_tensor
  intro wgs hwgs
  have hrows : wgs.rows = fs :=
    congrArg Prod.fst (hD .ffnGateShexp (hmem .ffnGateShexp (by decide)) wgs hwgs)
  apply (yields_slotAllocCols h3.new).skip
  intro gs s4 h4 _
  apply (yields_slotAllocCols h4.new).skip
  intro us s5 h5 _
  apply (yields_bufAllocCols h5.new).skip
  rintro hh s6 h6 ⟨-, hhh⟩
  apply (yields_slotAllocCols h6.new).skip
  intro ds s7 h7 _
  have h37 := (h4.trans h5).trans (h6.trans h7)
  have hi7 := hi2.ext (h3.trans h37)
  apply (yields_gateUpDown D h7.new hi7
    (fun w hw => hD.cols (hmem .ffnGateShexp (by decide)) hw)
    (fun w hw => hD.cols (hmem .ffnUpShexp (by decide)) hw)
    (fun w hw => (hD.cols (hmem .ffnDownShexp (by decide)) hw).trans hrows.symm)
    (hhh.trans h7.blocks_le)).skip
  intro sds s8 h8 hsds
  apply yields_positions_true (fun _ id s' => s'.Has id) (fun _ _ _ _ he h => he.has h) h8.new
  intro p s9 hp h9
  apply (yields_addAuxOp [(rdown p).1, sds p, i.tx2 p] h9.new (by decide)
    (by simp [h9.has (hsds p hp), h9.has (h8.has (h37.has (hrdown p hp))),
      h9.has (h8.has (hi7.tx2 p hp))])).mono
  intro id s10 h10
  exact ⟨h10.1, h10.2.has⟩

/-! ## The pass -/

/-- A layer is in order iff it is dense, or its router is. -/
theorem yields_layer {rowsz : UInt32} (hD : D.Shaped l fs) (hm : 1 ≤ m) (hs : s.Tidy)
    (hr : r.In m s) :
    Yields (layer D m rowsz r l) s fun r' s' =>
      Grown Set.univ (¬ l < D.hp.nDenseLead → D.PlainRouter l) s s' ∧
        ∀ p < m, ∃ d, r'.dep p = some d ∧ s'.Has d := by
  apply (yields_attention D hD hs hr).skip
  rintro i s1 h1 ⟨hi, -⟩
  apply (yields_bufAllocCols h1.new).skip
  intro xo s2 h2 _
  have hffn : Yields (ffn D l m rowsz i xo) s2 fun t s' =>
      Grown Set.univ (¬ l < D.hp.nDenseLead → D.PlainRouter l) s2 s' ∧ ∀ p < m, s'.Has (t p) := by
    rw [ffn]
    split_ifs with hl
    · exact (yields_ffnDense D hD hl h2.new (hi.ext h2)).mono fun _ _ h =>
        ⟨h.1.congr (iff_of_true trivial fun hn => absurd hl hn), h.2⟩
    · exact (yields_ffnMoe D hD hl hm h2.new (hi.ext h2)).mono fun _ _ h =>
        ⟨h.1.congr ⟨fun h _ => h, fun h => h hl⟩, h.2⟩
  apply hffn.last
  intro t s3 h3 ht
  exact .pure ⟨.refl h3.new, fun p hp => ⟨t p, rfl, ht p hp⟩⟩

/-- The tasks of a list, none of which has a consumer. -/
structure Plan.Ends (s : Plan) (sigs : List ℕ) : Prop where
  has : ∀ d ∈ sigs, s.Has d
  unfed : ∀ d ∈ sigs, ∀ c, ¬ s.Dep d c
  nodup : sigs.Nodup

/-- The quantizations of the final norms are the ends of the pass so far. -/
theorem yields_finalNorm {xF : Cols} (hs : s.Tidy) (hr : ∀ p < m, ∃ d, r.dep p = some d ∧ s.Has d)
    (hxF : xF.base.obj ≤ s.blocks) :
    Yields (finalNorm D m r xF) s fun fq8 s' => Grown Set.univ True s s' ∧
      s'.Quantized m xF D.hp.nEmbd.toNat fq8 ∧ s'.Ends ((List.range m).map fq8) := by
  have hloop := CmdProg.wp_mapM_range (n := m) (f := fun p => do
      let w ← tensor D .outputNorm
      let tFn ← addRmsNorm D w (r.x p) (xF.col p) D.hp.nEmbd [(r.dep p).getD noTask]
      addActQ8 tFn (xF.col p) D.hp.nEmbd)
    (Plan.spec_mono (fun _ => True) fun _ => True) (fun k as s' => Grown Set.univ True s s' ∧
      as.length = k ∧ (∀ p < k, s'.At (as.getD p default)
        (·.Quantizes (xF.col p) D.hp.nEmbd.toNat)) ∧ (∀ a ∈ as, s.next ≤ a) ∧ s'.Ends as)
    (s := s) ?_ ?_
  · apply Yields.bind hloop
    rintro as s1 ⟨h1, hlen, hq, -, hends⟩
    refine .pure ⟨h1, hq, ?_⟩
    rw [← hlen, map_getD_range]
    exact hends
  · exact ⟨.refl hs, rfl, fun p hp => absurd hp (Nat.not_lt_zero p), by simp,
      ⟨by simp, by simp, List.nodup_nil⟩⟩
  · rintro k as s1 hk ⟨h1, hlen, hq, hnew, hends⟩
    obtain ⟨d, hd, hdhas⟩ := hr k hk
    rw [hd]
    have hround := yields_normQ8 (D := D) (t := .outputNorm) (x := r.x k) (y := xF.col k)
      (n := D.hp.nEmbd) (X := Set.univ) [d] h1.new (by simpa using h1.has hdhas) (Set.mem_univ _)
      (hxF.trans h1.blocks_le)
    apply Yields.mono hround
    rintro a s2 ⟨h2, ha⟩
    have hlt : ∀ b ∈ as, b < s1.next := fun b hb => h1.new.has_lt b (hends.has b hb)
    have hanew : s.next ≤ a := h1.next_le.trans ha.next_le
    have hmem : ∀ b ∈ as ++ [a], b ∈ as ∨ b = a := by simp
    refine ⟨h1.skip h2, by simp [hlen], fun p hp => ?_, fun b hb => ?_,
      ⟨fun b hb => ?_, fun b hb c hbc => ?_, ?_⟩⟩
    · rcases Nat.lt_succ_iff_lt_or_eq.mp hp with hlt | rfl
      · rw [List.getD_append _ _ _ _ (by omega)]
        exact h2.at_of (hq p hlt)
      · rw [List.getD_append_right _ _ _ _ (by omega), hlen, Nat.sub_self]
        exact ha.at_
    · rcases hmem b hb with hb | rfl
      · exact hnew b hb
      · exact hanew
    · rcases hmem b hb with hb | rfl
      · exact h2.has (hends.has b hb)
      · exact ha.at_.has
    · rcases hmem b hb with hb | rfl
      · rcases ha.fed b c (hlt b hb) hbc with hold | hdep
        · exact hends.unfed b hb c hold
        · -- the producer of the residual is older
          rw [List.mem_singleton.mp hdep] at hb
          exact absurd (hs.has_lt d hdhas) (Nat.not_lt.mpr (hnew d hb))
      · exact ha.unfed c hbc
    · rw [List.nodup_append]
      refine ⟨hends.nodup, List.nodup_singleton a, fun b hb c hc => ?_⟩
      rw [List.mem_singleton.mp hc]
      exact ((hlt b hb).trans_le ha.next_le).ne

/-- The tiles of the head wait for all final quantizations. -/
theorem yields_head {rowsz : UInt32} {xF : Cols} {fq8 : ℕ → ℕ} (hm : 1 ≤ m)
    (hw : ∀ w, D.weights .output = some w → w.cols = D.hp.nEmbd) (hs : s.Tidy)
    (hq : s.Quantized m xF D.hp.nEmbd.toNat fq8) (hends : s.Ends ((List.range m).map fq8)) :
    Yields (head D m rowsz xF fq8) s fun a s' => Grown Set.univ True s s' ∧ s'.Ends a.2 := by
  rw [head]
  split_ifs
  · exact .pure ⟨.refl hs, hends⟩
  · apply (yields_slotAlloc hs).skip
    intro lg s1 h1 _
    apply yields_tensor
    intro w hwo
    have hdeps : ∀ d ∈ (List.range m).map fq8, s1.Has d := fun d hd => h1.has (hends.has d hd)
    apply (yields_addDotM hm h1.new hdeps fun p hp => ?_).skip
    · rintro sig s2 h2 ⟨hsig, hunfed⟩
      exact .pure ⟨.refl h2.new, by simpa using hsig, by simpa using hunfed,
        List.nodup_singleton sig⟩
    · rw [hw w hwo]
      exact (hq.ext h1 p hp).supplies (List.mem_map.mpr ⟨p, List.mem_range.mpr hp, rfl⟩)

/-- The terminal. -/
theorem yields_terminal {α : Type} {a : α} {sigs : List ℕ} (hs : s.Tidy) (hends : s.Ends sigs) :
    Yields (do
      let term ← add rawSignal
      sigs.forM fun d => edge d term
      Pure.pure a) s fun _ s' => Grown X True s s' := by
  have hadd : Yields (add rawSignal) s fun id s' => s.next ≤ id ∧ s' = s.add id rawSignal :=
    ⟨trivial, fun id hid => ⟨hid, rfl⟩⟩
  apply hadd.bind
  rintro id _ ⟨hid, rfl⟩
  have hloop := CmdProg.wp_forM (l := sigs) (f := fun d => edge d id)
    (Plan.spec_mono (fun _ => True) fun _ => True) (fun done s' => s'.next = id + 1 ∧
      s'.task = (s.add id rawSignal).task ∧ s'.deps = s.deps ++ done.map (fun d => (d, id)) ∧
      s'.mem = s.mem ∧ ∀ d, s'.out d = s.out d + done.count d) (s := s.add id rawSignal) ?_ ?_
  · apply Yields.bind hloop
    rintro _ s' ⟨hnext, htask, hdeps', hmem, -⟩
    have hnew : NewTask s s' rawSignal sigs id := ⟨hid, hnext, htask, hdeps', hmem⟩
    exact .pure (hnew.plain hs hends.has (by decide))
  · exact ⟨rfl, rfl, by simp, rfl, fun d => by simp [Plan.out_add]⟩
  · rintro done d rest s1 hl ⟨hnext, htask, hdeps1, hmem, hout⟩
    have hd : d ∈ sigs := by
      rw [hl]
      simp
    have hhas (i : ℕ) : s1.Has i ↔ (s.add id rawSignal).Has i := by rw [Plan.Has, htask]; rfl
    have hcount : done.count d = 0 := by
      have hnd := hends.nodup
      rw [hl, List.nodup_append] at hnd
      exact List.count_eq_zero.mpr fun hmem => hnd.2.2 d hmem d (by simp) rfl
    have hzero : s1.out d = 0 := by
      rw [hout, hcount, Plan.out_eq_zero.mpr (hends.unfed d hd)]
    refine ⟨(hhas d).mpr (by simp [hends.has d hd]), (hhas id).mpr (by simp),
      (hs.has_lt d (hends.has d hd)).trans_le hid, by rw [hzero]; decide, hnext, htask, ?_, hmem,
      fun i => ?_⟩
    · rw [Plan.deps_link, hdeps1]
      simp
    · rw [Plan.out_link, hout, List.count_append, List.count_singleton, Nat.add_assoc]
      by_cases hdi : d = i <;> simp [hdi]

/-- No router of the pass is quantized. -/
def Decoder.PlainRouters (D : Decoder) : Prop :=
  ∀ l < D.hp.nLayer, ¬ l < D.hp.nDenseLead → D.PlainRouter l

/-- The tensors of a pass have the shapes their names call for. -/
structure Decoder.PassShaped (D : Decoder) (fs : UInt32 → UInt32) : Prop where
  layers : D.hp.nLayer ≠ 0
  blk : ∀ l < D.hp.nLayer, D.Shaped l (fs l)
  output : ∀ w, D.weights .output = some w → w.cols = D.hp.nEmbd

theorem forall_ofNat_lt_iff {n : UInt32} {P : UInt32 → Prop} :
    (∀ k < n.toNat, P (.ofNat k)) ↔ ∀ l < n, P l := by
  constructor
  · intro h l hl
    have := h l.toNat (UInt32.lt_iff_toNat_lt.mp hl)
    rwa [UInt32.ofNat_toNat] at this
  · intro h k hk
    apply h
    rw [UInt32.lt_iff_toNat_lt, UInt32.toNat_ofNat_of_lt' (lt_trans hk n.toNat_lt)]
    exact hk

/-- The tiles of a pass come behind their quantizations iff no router is quantized. -/
theorem yields_wire {fs : UInt32 → UInt32} (hD : D.PassShaped fs) (hm : 1 ≤ m) (hs : s.Tidy) :
    Yields (wire D m) s fun _ s' => Grown Set.univ D.PlainRouters s s' := by
  have hcur : Yields (positions m fun _ => bufAlloc D.hp.nEmbd) s fun _ s' =>
      Grown Set.univ True s s' ∧ ∀ p < m, True := by
    apply yields_positions_true (fun _ _ _ => True) (fun _ _ _ _ _ _ => trivial) hs
    exact fun _ _ _ h1 => (yields_alloc h1.new).mono fun _ _ h => ⟨h.1, trivial⟩
  apply hcur.bind
  rintro xCur s1 ⟨h1, -⟩
  have hloop := CmdProg.wp_foldlM_range (n := D.hp.nLayer.toNat) (a := ⟨xCur, fun _ => none⟩)
    (f := fun r l => layer D m (rowszOf D.o m) r (.ofNat l))
    (Plan.spec_mono (fun _ => True) fun _ => True) (fun k r s' =>
      Grown Set.univ (∀ j < k, ¬ UInt32.ofNat j < D.hp.nDenseLead → D.PlainRouter (.ofNat j))
        s1 s' ∧ r.In m s' ∧ (0 < k → ∀ p < m, ∃ d, r.dep p = some d ∧ s'.Has d)) (s := s1) ?_ ?_
  · apply Yields.bind hloop
    rintro r s2 ⟨h2, -, hr⟩
    have hpos : 0 < D.hp.nLayer.toNat := by
      rw [Nat.pos_iff_ne_zero]
      exact fun hz => hD.layers (UInt32.toNat_inj.mp hz)
    have hall := (h1.skip h2).congr (forall_ofNat_lt_iff (P := fun l =>
      ¬ l < D.hp.nDenseLead → D.PlainRouter l))
    apply (yields_bufAllocCols (X := Set.univ) h2.new).bind
    rintro xF s3 ⟨h3, -, hxF⟩
    apply (yields_finalNorm D h3.new (fun p hp => ?_) hxF).bind
    · rintro fq8 s4 ⟨h4, hq, hends⟩
      apply (yields_head D hm hD.output h4.new hq hends).bind
      rintro a s5 ⟨h5, hends5⟩
      apply (yields_terminal h5.new hends5).mono
      intro _ s6 h6
      exact (((hall.last h3).last h4).last h5).last h6
    · obtain ⟨d, hd, hdhas⟩ := hr hpos p hp
      exact ⟨d, hd, h3.has hdhas⟩
  · exact ⟨(Grown.refl h1.new).congr
        (iff_of_true trivial fun j hj => absurd hj (Nat.not_lt_zero j)),
      fun _ _ d hd => absurd hd (by simp), fun h => absurd h (lt_irrefl 0)⟩
  · rintro k r s2 hk ⟨h2, hr, -⟩
    have hl : UInt32.ofNat k < D.hp.nLayer := by
      rw [UInt32.lt_iff_toNat_lt, UInt32.toNat_ofNat_of_lt' (lt_trans hk D.hp.nLayer.toNat_lt)]
      exact hk
    apply Yields.mono (yields_layer D (hD.blk _ hl) hm h2.new hr)
    rintro r' s3 ⟨h3, hr'⟩
    refine ⟨(h2.trans h3).congr Nat.forall_lt_succ_right.symm, fun p hp d hd => ?_, fun _ => hr'⟩
    obtain ⟨e, he, hehas⟩ := hr' p hp
    rw [he] at hd
    rw [List.mem_singleton.mp hd]
    exact hehas

end

/-! ## The graph -/

/-- Each column that a tile of a quantized matrix reads is quantized by a task before it. -/
def GraphImpl.QuantsFirst (g : GraphImpl) : Prop :=
  ∀ i < g.size, (g.task i).IsQuantDot → ∀ k < (g.task i).columns,
    ∃ q, (g.task q).Quantizes ((g.task i).inCol k) (g.task i).cols ∧ g.Reaches q i

theorem GraphImpl.quantsFirst_congr {g g' : GraphImpl} (h : g'.tasks = g.tasks) :
    g'.QuantsFirst ↔ g.QuantsFirst := by
  have hsize : g'.size = g.size := by rw [size, size, h]
  have htask : g'.task = g.task := funext fun i => by rw [task, task, h]
  have hcons : g'.cons = g.cons := funext fun i => by rw [cons, cons, htask]
  simp only [QuantsFirst, Reaches, hsize, htask, hcons]

/-- A task that was not asked for is a signal. -/
theorem Realizes.has_of_kind {adm : TaskParams → Prop} {st : BuildState} (h : Realizes adm s st)
    {i : ℕ} (hi : i < st.g.size) (hk : (st.g.task i).kind ≠ .SIGNAL) : s.Has i := by
  obtain ⟨own, ht, -⟩ := h.tree
  by_contra hno
  have hraw := ht.relay_params i hi hno
  exact hk (congrArg TaskParams.kind hraw)

theorem Realizes.task_iff {adm : TaskParams → Prop} {st : BuildState} (h : Realizes adm s st)
    {i : ℕ} (hi : s.Has i) {t : TaskParams} :
    s.task i = some t ↔ (st.g.task i).toTaskParams = t := by
  obtain ⟨own, ht, -⟩ := h.tree
  obtain ⟨u, hu⟩ := Option.isSome_iff_exists.mp hi
  rw [ht.params_eq i u hu, hu, Option.some.injEq]

/-- Between tasks that were asked for, the graph has the paths of the plan. -/
theorem Realizes.reaches_iff {adm : TaskParams → Prop} {st : BuildState} (h : Realizes adm s st)
    {i j : ℕ} (hi : s.Has i) (hj : s.Has j) : st.g.Reaches i j ↔ TransGen s.Dep i j := by
  refine ⟨fun hp => ?_, h.reaches⟩
  obtain ⟨own, ht, -⟩ := h.tree
  have hedge : TransGen (EdgeOf st.g.cons st.g.size) i j :=
    TransGen.mono (fun a b hab => ⟨Tree.lt_of_mem_cons hab, hab⟩) _ _ hp
  rcases ht.transGen hedge with hpath | ⟨hno, -⟩
  · rw [ht.own_self i hi, ht.own_self j hj] at hpath
    exact hpath
  · exact absurd hj hno

theorem Realizes.quantsFirst_iff {adm : TaskParams → Prop} {st : BuildState}
    (h : Realizes adm s st) :
    st.g.QuantsFirst ↔ ∀ i t, s.task i = some t → t.IsQuantDot → s.Behind i t := by
  have hsize (i : ℕ) (hi : s.Has i) : i < st.g.size := by
    obtain ⟨own, ht, -⟩ := h.tree
    exact (ht.has_lt i hi).trans_le ht.next_le
  constructor
  · intro hg i t hit hdot k hk
    have hi := Plan.has_of_task hit
    obtain rfl := (h.task_iff hi).mp hit
    obtain ⟨q, hq, hpath⟩ := hg i (hsize i hi) hdot k hk
    have hqlt : q < st.g.size := by
      obtain ⟨b, hb, -⟩ := TransGen.head'_iff.mp hpath
      exact Tree.lt_of_mem_cons hb
    have hqhas : s.Has q := h.has_of_kind hqlt (by rw [hq.kind]; decide)
    exact ⟨q, ⟨_, (h.task_iff hqhas).mpr rfl, hq⟩, (h.reaches_iff hqhas hi).mp hpath⟩
  · intro hs i hi hdot k hk
    have hhas : s.Has i := h.has_of_kind hi (by rcases hdot.1 with hd | hd <;> rw [hd] <;> decide)
    obtain ⟨q, ⟨u, hu, hq⟩, hpath⟩ := hs i _ ((h.task_iff hhas).mpr rfl) hdot k hk
    have hqhas := Plan.has_of_task hu
    obtain rfl := (h.task_iff hqhas).mp hu
    exact ⟨q, hq, (h.reaches_iff hqhas hhas).mpr hpath⟩

/-- The graph of a pass has its quantizations first iff no router is quantized. -/
theorem buildGraphM_quantsFirst_iff {D : Decoder} {fs : UInt32 → UInt32} (hD : D.PassShaped fs)
    {m : ℕ} (hm : 1 ≤ m) {mem : DecoderMem} {r : GraphSet × DecoderMem}
    (hbuild : buildGraphM D m mem = .ok r) : r.1.g.QuantsFirst ↔ D.PlainRouters := by
  obtain ⟨⟨mem1, p⟩, -, hbuild⟩ := GraphImpl.bind_ok.mp hbuild
  obtain ⟨⟨taps, st⟩, hwire, hbuild⟩ := GraphImpl.bind_ok.mp hbuild
  obtain ⟨g, hfreeze, hbuild⟩ := GraphImpl.bind_ok.mp hbuild
  cases hbuild
  have hrefines : CmdProg.Refines BuildState.run (Plan.spec (fun _ => True) fun _ => True)
      (fun _ => True) (Realizes fun _ => True) := run_refines _ trivial
  have hmeets := CmdProg.exec_of_wp hrefines
    (Realizes.create (fun _ => True) (18000 * .ofNat m) mem1)
    (yields_wire D hD hm (Plan.Tidy.create mem1))
  obtain ⟨s, hreal, hgrown⟩ := hmeets.of_ok hwire
  obtain ⟨own, htree, -⟩ := hreal.tree
  obtain ⟨-, -, htasks⟩ := GraphImpl.freeze_ok hfreeze htree.fresh htree.wf
  rw [GraphImpl.quantsFirst_congr htasks, hreal.quantsFirst_iff, ← hgrown.behind]
  exact ⟨fun h i t _ => h i t, fun h i t => h i t (Nat.zero_le i)⟩

/-- A model that loads has a layer. -/
theorem load_nLayer_ne {G : Gguf} {o : LoadOpts} {D : Decoder} {gs : List GraphSet}
    (h : load G o = .ok (some (D, gs))) : D.hp.nLayer ≠ 0 := by
  rw [load] at h
  split_ifs at h with harch
  · cases h
  · obtain ⟨hp, -, h⟩ := GraphImpl.bind_ok.mp h
    dsimp only at h
    split_ifs at h with hmissing
    · cases h
    · split at h
      · next q _ _ hq _ _ =>
        split_ifs at h with hshape
        · obtain ⟨r, hr, h⟩ := GraphImpl.bind_ok.mp h
          cases h
          obtain ⟨rfl, -, -⟩ := buildGraphs_ok hr
          -- the query projection of the first layer is there
          intro hzero
          rw [loadWeights, if_neg] at hq
          · cases hq
          · simp [wantedTensors, hzero]
        · cases h
      · cases h
      · cases h
      · cases h

theorem Decoder.Consistent.passShaped {D : Decoder} {fs : UInt32 → UInt32} (h : D.Consistent fs)
    (hlayers : D.hp.nLayer ≠ 0) : D.PassShaped fs where
  layers := hlayers
  blk l hl c hc w hw := by
    obtain ⟨w', hw', -, hshape, -⟩ := h.blk l hl c hc
    obtain rfl : w' = w := Option.some.inj (hw'.symm.trans hw)
    exact hshape
  output w hw := by
    obtain ⟨w', hw', -, -, hcols, -⟩ := h.output
    obtain rfl : w' = w := Option.some.inj (hw'.symm.trans hw)
    exact hcols

/-- **Quantizations come first.**  For every model `load` accepts, with shapes consistent with its
hyper-parameters, whatever the formats of its tensors, and every batch size and build switch: each
column that a tile of a quantized matrix reads is quantized by a task before the tile iff no router
is quantized. -/
theorem load_quantsFirst_iff {G : Gguf} {o : LoadOpts} {D : Decoder} {gs : List GraphSet}
    (hload : load G o = .ok (some (D, gs))) {fs : UInt32 → UInt32} (hD : D.Consistent fs) {i : ℕ}
    {g : GraphSet} (hg : gs[i]? = some g) : g.g.QuantsFirst ↔ D.PlainRouters := by
  obtain ⟨hp, -, -, -, hbuilt⟩ := load_ok hload
  obtain ⟨mem, r, hbuild, rfl⟩ := hbuilt i g hg
  exact buildGraphM_quantsFirst_iff (hD.passShaped (load_nLayer_ne hload))
    (Nat.succ_le_succ (Nat.zero_le i)) hbuild

/-! ## A model with a quantized router -/

/-- The hyper-parameters of one expert layer of width 32. -/
def expertKeys : List (String × ℤ) :=
  [("embedding_length", 32), ("block_count", 1), ("attention.head_count", 1),
    ("attention.key_length", 32), ("attention.value_length", 32), ("rope.dimension_count", 8),
    ("attention.kv_lora_rank", 32), ("leading_dense_block_count", 0), ("feed_forward_length", 32),
    ("expert_feed_forward_length", 32), ("expert_count", 2), ("expert_used_count", 1)]

/-- A tensor of two experts. -/
def expertInfo (n : TensorName) : GgufTensor := ⟨ascii n.str, 0, [32, 32, 2], 0, 0, 0⟩

/-- The model with these hyper-parameters, whose router has the type `type`. -/
def expertGguf (type : ℕ) : Gguf where
  kv :=
    { i := fun k => (expertKeys.find? fun e => ascii ("deepseek2." ++ e.1) = k).map Prod.snd
      s := fun k => if k = ascii "general.architecture" then some (ascii "deepseek2") else none }
  tensors :=
    [floatInfo .tokenEmbd 8 32, floatInfo .outputNorm 1 32, floatInfo .output 8 32,
      floatInfo (.blk 0 .attnNorm) 1 32, floatInfo (.blk 0 .attnQ) 32 32,
      floatInfo (.blk 0 .attnKvAMqa) 40 32, floatInfo (.blk 0 .attnKvANorm) 1 32,
      floatInfo (.blk 0 .attnKvB) 56 32, floatInfo (.blk 0 .attnOutput) 32 32,
      floatInfo (.blk 0 .ffnNorm) 1 32,
      { floatInfo (.blk 0 .ffnGateInp) 2 32 with type := type },
      expertInfo (.blk 0 .ffnGateExps), expertInfo (.blk 0 .ffnUpExps),
      expertInfo (.blk 0 .ffnDownExps), floatInfo (.blk 0 .ffnGateShexp) 32 32,
      floatInfo (.blk 0 .ffnUpShexp) 32 32, floatInfo (.blk 0 .ffnDownShexp) 32 32]

instance (w : WTensor) : Decidable w.Loaded :=
  decidable_of_iff (w.cols.toNat % blkElems w.fmt = 0 ∧
    w.rowBytes.toNat = rowBytes w.fmt w.cols.toNat ∧ w.estride.toNat =
      if 1 < w.nexp then w.rows.toNat * rowBytes w.fmt w.cols.toNat else 0)
    ⟨fun h => ⟨h.1, h.2.1, h.2.2⟩, fun h => ⟨h.blocks, h.rowBytes_eq, h.estride_eq⟩⟩

/-- The tensors of its layer have the shapes the hyper-parameters call for. -/
def ExpertShapes (type : ℕ) (hp : HParams) : Prop :=
  hp.nLayer = 1 ∧ hp.nDenseLead = 0 ∧
    (∀ c ∈ LayerTensor.common ++ LayerTensor.moe,
      ∃ w ∈ loadTensor (expertGguf type) (fun _ => ⟨0, 0⟩) (.blk 0 c), w.Loaded ∧
        (w.rows, w.cols) = hp.shape 32 c ∧ w.nexp = if c.isExps then hp.nExpert else 1) ∧
    (∃ w ∈ loadTensor (expertGguf type) (fun _ => ⟨0, 0⟩) .outputNorm, w.Loaded ∧ w.rows = 1 ∧
      w.cols = hp.nEmbd) ∧
    ∃ w ∈ loadTensor (expertGguf type) (fun _ => ⟨0, 0⟩) .output, w.Loaded ∧
      w.rows = hp.nVocab ∧ w.cols = hp.nEmbd ∧ w.nexp = 1

instance (type : ℕ) (hp : HParams) : Decidable (ExpertShapes type hp) := by
  unfold ExpertShapes
  infer_instance

theorem expertGguf_loaded {type : ℕ} {D : Decoder} {gs : List GraphSet}
    (hload : load (expertGguf type) {} = .ok (some (D, gs)))
    (hshapes : (loadHParams (expertGguf type) none).map (fun hp => decide (ExpertShapes type hp)) =
      .ok true) : D.Consistent (fun _ => 32) ∧ (D.PlainRouters ↔
        ∀ w ∈ loadTensor (expertGguf type) (fun _ => ⟨0, 0⟩) (.blk 0 .ffnGateInp),
          ¬ w.Quantized) := by
  obtain ⟨hp, hhp, rfl, hweights, -⟩ := load_ok hload
  rw [hhp] at hshapes
  obtain ⟨hlayer, hlead, hblk, hnorm, hout⟩ := of_decide_eq_true (Except.ok.inj hshapes)
  have hfirst {l : UInt32} (hl : l < D.hp.nLayer) : l = 0 := by
    rw [hlayer, UInt32.lt_iff_toNat_lt] at hl
    exact UInt32.toNat_inj.mp (Nat.lt_one_iff.mp hl)
  have hdense : ¬ (0 : UInt32) < D.hp.nDenseLead := by
    rw [hlead]
    decide
  have htensors : D.layerTensors 0 = LayerTensor.common ++ LayerTensor.moe := by
    rw [Decoder.layerTensors, if_neg hdense]
  have hwanted {c : LayerTensor} (hc : c ∈ LayerTensor.common ++ LayerTensor.moe) :
      .blk 0 c ∈ wantedTensors D.hp := by
    rw [wantedTensors, hlayer]
    refine List.mem_append_right _
      (List.mem_flatMap.mpr ⟨0, by simp, List.mem_map.mpr ⟨c, ?_, rfl⟩⟩)
    exact (if_neg hdense).symm ▸ hc
  have hfind {n : TensorName} {P : WTensor → Prop} (hn : n ∈ wantedTensors D.hp)
      (h : ∃ w ∈ loadTensor (expertGguf type) (fun _ => ⟨0, 0⟩) n, P w) :
      ∃ w, D.weights n = some w ∧ P w := by
    obtain ⟨w, hw, hP⟩ := h
    exact ⟨w, (hweights n hn).1.trans hw, hP⟩
  constructor
  · refine ⟨fun l hl c hc => ?_, hfind (by simp [wantedTensors]) hnorm,
      hfind (by simp [wantedTensors]) hout⟩
    obtain rfl := hfirst hl
    rw [htensors] at hc
    exact hfind (hwanted hc) (hblk c hc)
  · have hrouter : D.weights (.blk 0 .ffnGateInp) =
        loadTensor (expertGguf type) (fun _ => ⟨0, 0⟩) (.blk 0 .ffnGateInp) :=
      (hweights _ (hwanted (by decide))).1
    constructor
    · intro h w hw
      exact h 0 (by rw [hlayer]; decide) hdense w (hrouter.trans hw)
    · intro h l hl _ w hw
      obtain rfl := hfirst hl
      exact h w (hrouter.symm.trans hw)

/-- With a router of floats the quantizations come first. -/
theorem quantsFirst_float_router : ∃ D gs g, load (expertGguf 0) {} = .ok (some (D, gs)) ∧
    gs[0]? = some g ∧ g.g.QuantsFirst := by
  obtain ⟨D, gs, g, hload, hg⟩ := exists_load (G := expertGguf 0) (o := {}) (by decide +kernel)
  obtain ⟨hD, hplain⟩ := expertGguf_loaded hload (by decide +kernel)
  have hfmt : (loadTensor (expertGguf 0) (fun _ => ⟨0, 0⟩) (.blk 0 .ffnGateInp)).map
      (fun w => w.fmt) = some .F32 := by
    decide +kernel
  refine ⟨D, gs, g, hload, hg, (load_quantsFirst_iff hload hD hg).mpr (hplain.mpr ?_)⟩
  intro w hw hquant
  rw [Option.mem_def.mp hw] at hfmt
  exact hquant.1 (Option.some.inj hfmt)

/-- With a router in Q8_0 they do not. -/
theorem quantized_router_early : ∃ D gs g, load (expertGguf 8) {} = .ok (some (D, gs)) ∧
    D.Consistent (fun _ => 32) ∧ gs[0]? = some g ∧ ¬ g.g.QuantsFirst := by
  obtain ⟨D, gs, g, hload, hg⟩ := exists_load (G := expertGguf 8) (o := {}) (by decide +kernel)
  obtain ⟨hD, hplain⟩ := expertGguf_loaded hload (by decide +kernel)
  obtain ⟨hp, -, -, -, hbuilt⟩ := load_ok hload
  obtain ⟨mem, r, hbuild, rfl⟩ := hbuilt 0 g hg
  have hrouter : (loadTensor (expertGguf 8) (fun _ => ⟨0, 0⟩) (.blk 0 .ffnGateInp)).map
      (fun w => (w.fmt, w.rows)) = some (.Q8_0, 2) := by
    decide +kernel
  refine ⟨D, gs, _, hload, hD, hg, fun hfirst => ?_⟩
  have hrouters := (buildGraphM_quantsFirst_iff (hD.passShaped (load_nLayer_ne hload)) le_rfl
    hbuild).mp hfirst
  obtain ⟨w, hw, hfields⟩ := Option.map_eq_some_iff.mp hrouter
  obtain ⟨hfmt, hrows⟩ := Prod.mk.inj hfields
  refine hplain.mp hrouters w hw ⟨?_, ?_⟩
  · rw [hfmt]
    decide
  · rw [hrows]
    decide

end FastLlm
