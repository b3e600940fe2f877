import FastLlm.Model.HeadCert

/-!
# The logits of the certificate and of the engine

`load()` selects how the certificate computes the logit of a row, from the options of the engine;
the engine has its own dispatch.  The two agree, whatever the float operations are, when the fast
kernels run in the runtime.  Otherwise the engine is canonical, and the certificate agrees with it
only in the canonical mode of the formats it has a canonical kernel for
(`headDot_eq_engine_iff`).

## Main definitions

* `EngineOpts`, `execEngine` — the options, and a tile on the CPU.
* `loadHeadDot` — the mode that `load()` selects.
* `HeadTile` — a tile of the head.
-/

namespace FastLlm

/-- The options of `DecodeOpts` that select kernels. -/
structure EngineOpts where
  useRuntime : Bool
  fastKernels : Bool
  int8Dots : Bool
  deriving DecidableEq, Repr

/-- `1u << (int)fmt`. -/
def fmtBit (f : Fmt) : UInt32 := (1 : UInt32) <<< UInt32.ofNat f.code

def kI8MaskCpuDefault : UInt32 := fmtBit .Q8_0 ||| fmtBit .Q5_0 ||| fmtBit .Q4_K ||| fmtBit .Q6_K
def kI8KMaskCpuDefault : UInt32 := fmtBit .Q4_K ||| fmtBit .Q6_K

/-- What a runtime with these options passes to `exec_task_cpu`: the default masks, without the
bits of the codebook formats. -/
def EngineOpts.cpuConfig (o : EngineOpts) (mcLegacy shadowEnabled : Bool) (spans : List RegSpan) :
    CpuConfig where
  fast := o.fastKernels
  i8Mask := if o.int8Dots then kI8MaskCpuDefault &&& ~~~(fmtBit .IQ2_XXS ||| fmtBit .IQ3_XXS) else 0
  i8kMask := if o.int8Dots then kI8KMaskCpuDefault else 0
  mcLegacy := mcLegacy
  shadowEnabled := shadowEnabled
  spans := spans

/-- `hc_dot_`, if the certificate is not disabled. -/
def loadHeadDot (o : EngineOpts) (f : Fmt) : Option HeadDotMode :=
  if o.int8Dots ∧ f ≠ .Q4_K ∧ f ≠ .Q6_K then none
  else some (if o.int8Dots then .I8K else if o.fastKernels then .FAST_DEQ else .CANON)

/-- The int8 mode is selected for the formats that have an i8k path. -/
theorem loadHeadDot_eq_some {o : EngineOpts} {f : Fmt} {mode : HeadDotMode}
    (h : loadHeadDot o f = some mode) : (o.int8Dots → f = .Q4_K ∨ f = .Q6_K) ∧
      mode = if o.int8Dots then .I8K else if o.fastKernels then .FAST_DEQ else .CANON := by
  rw [loadHeadDot, Option.ite_none_left_eq_some] at h
  obtain ⟨hdis, hmode⟩ := h
  refine ⟨fun hi => ?_, (Option.some.inj hmode).symm⟩
  by_contra hne
  rw [not_or] at hne
  exact hdis ⟨hi, hne⟩

section
variable {F : Type} (A : Arith F)

/-- A tile on the CPU: by a worker of the runtime, or by `run_serial`. -/
def execEngine (o : EngineOpts) (mcLegacy shadowEnabled : Bool) (spans : List RegSpan)
    (m : TileMem F) (t : TaskParams) (y : Loc → F) : Loc → F :=
  if o.useRuntime then execDotCpu A (o.cpuConfig mcLegacy shadowEnabled spans) m t y
  else execDotScalar A m t y

end

/-- A tile of the head, from row `r0` on. -/
structure HeadTile (M : HeadMat) (t : TaskParams) (r0 : ℕ) : Prop where
  kind : t.kind = .STREAM_DOT
  fmt : t.fmt = M.fmt
  cols : t.cols = M.NE
  rb : M.rb = rowBytes M.fmt M.NE
  w : t.w = M.w.add (r0 * M.rb)

section
variable {F : Type} (A : Arith F)

/-- The value that the engine adds for a row of a tile. -/
def engineDot (o : EngineOpts) (f : Fmt) (row : ℕ → UInt8) (x : ℕ → F) (xk : ℕ → BlkQ8K F)
    (cols : ℕ) : F :=
  if ¬ (o.useRuntime ∧ o.fastKernels) then dotRowAny A f row x cols
  else if o.int8Dots then dotI8kAny A f row xk cols
  else
    match f with
    | .F32 => dotRowFast A (fun e => A.ofBits (le32 row (4 * e))) x cols
    | .Q8_0 => dotRowFastQ80 A row x cols
    | _ => dotRowFastDequant A f row x cols

variable {M : HeadMat} {t : TaskParams} {r0 : ℕ} (m : TileMem F)

/-- Row `r` of the tile is row `r0 + r` of the head. -/
theorem HeadTile.row (ht : HeadTile M t r0) (r : ℕ) :
    m.row ((tileW m t).add (r * rowBytes M.fmt M.NE)) = M.row m (r0 + r) := by
  have hw : tileW m t = t.w := by rw [tileW, ht.kind]
  rw [hw, ht.w, HeadMat.row, ht.rb, BytePtr.add_add, Nat.add_mul]

/-- No span is registered for the head. -/
theorem HeadTile.no_shadow (ht : HeadTile M t r0) {spans : List RegSpan}
    (hspans : ∀ s ∈ spans, s.contains t.w = false) : flShadowFind spans (tileW m t) = none := by
  have hw : tileW m t = t.w := by rw [tileW, ht.kind]
  rw [hw, flShadowFind, Option.filter_eq_none_iff]
  intro s hs
  rw [hspans s ((List.takeWhile_sublist _).subset (List.mem_of_getLast? hs))]
  decide

/-- A tile of the head adds `engineDot` to its outputs. -/
theorem execEngine_eq (ht : HeadTile M t r0) {o : EngineOpts} {mode : HeadDotMode}
    (hload : loadHeadDot o M.fmt = some mode) (mcLegacy shadowEnabled : Bool)
    {spans : List RegSpan} (hspans : ∀ s ∈ spans, s.contains t.w = false) (y : Loc → F) :
    execEngine A o mcLegacy shadowEnabled spans m t y = addTile A t (fun r p =>
      engineDot A o M.fmt (M.row m (r0 + r)) (m.col (t.inCol p)) (m.xqk (t.inCol p) M.NE) M.NE)
      y := by
  obtain ⟨hmode, -⟩ := loadHeadDot_eq_some hload
  obtain ⟨rt, fast, int8⟩ := o
  cases rt with
  | false =>
    simp only [execEngine, Bool.false_eq_true, if_false, execDotScalar, ht.fmt, ht.cols, ht.row,
      engineDot, false_and, not_false_eq_true, if_true]
  | true =>
    simp only [execEngine, if_true, execDotCpu_eq, engineDot, true_and]
    congr 1
    funext r p
    simp only [cpuDot, EngineOpts.cpuConfig, ht.fmt, ht.cols, ht.row, ht.no_shadow m hspans]
    cases fast with
    | false => rfl
    | true =>
      cases int8 with
      | false =>
        have hmask : maskBit 0 M.fmt = false := by cases M.fmt <;> decide
        have hk : ¬ ((M.fmt = .Q4_K ∨ M.fmt = .Q6_K) ∧ maskBit 0 M.fmt) := by simp [hmask]
        have h8 : ¬ (M.fmt ≠ .F32 ∧ maskBit 0 M.fmt) := by simp [hmask]
        have hfast : ¬ ¬ (true = true) := by decide
        refine (if_neg hfast).trans ((if_neg hk).trans ((if_neg h8).trans ?_))
        cases M.fmt <;> rfl
      | true =>
        rcases hmode rfl with hf | hf
        · rw [hf]
          have hmask : maskBit kI8KMaskCpuDefault .Q4_K = true := by decide
          simp [hmask]
        · rw [hf]
          have hmask : maskBit kI8KMaskCpuDefault .Q6_K = true := by decide
          simp [hmask]

end

/-! ## Telling the kernels apart -/

/-- An interpretation that counts how deeply sums are nested on the right. -/
def nestArith : Arith ℕ where
  zero := 0
  half := 0
  quarter := 0
  ofInt _ := 0
  ofBits _ := 0
  add a b := max a (b + 1)
  sub _ _ := 0
  mul _ _ := 0
  neg _ := 0
  fma _ _ _ := 0

theorem nestArith_add (a b : ℕ) : nestArith.add a b = max a (b + 1) := rfl

theorem nestArith_mul (a b : ℕ) : nestArith.mul a b = 0 := rfl

/-- The canonical kernels add products to their accumulator, one after the other. -/
theorem dotRowAny_nest (f : Fmt) (row : ℕ → UInt8) (x : ℕ → ℕ) {cols : ℕ}
    (hc : blkElems f ∣ cols) : dotRowAny nestArith f row x cols ≤ 1 := by
  have hstep : ∀ acc v w : ℕ, acc ≤ 1 → nestArith.add acc (nestArith.mul v w) ≤ 1 := by
    intro acc v w hacc
    rw [nestArith_add, nestArith_mul]
    omega
  by_cases hf : f = .IQ3_XXS
  · subst hf
    change dotRowIq3 nestArith row x cols ≤ 1
    rw [dotRowIq3_blocks]
    have hkeep : ∀ {n a : ℕ} {g : ℕ → ℕ → ℕ}, a ≤ 1 → (∀ i, ∀ b ≤ 1, g i b ≤ 1) →
        iter n a g ≤ 1 := by
      intro n a g ha hg
      exact iter_induction (P := fun _ b => b ≤ 1) ha fun i _ b hb => hg i b hb
    refine hkeep (Nat.zero_le 1) fun sb a ha => hkeep ha fun ib a ha => hkeep ha fun l a ha =>
      hkeep ha fun j a ha => hkeep ha fun h a ha => hstep a _ _ ha
  · rw [dotRowAny_ascending nestArith hf row x hc, dotAscending]
    exact iter_induction (P := fun _ b => b ≤ 1) (Nat.zero_le 1) fun i _ b hb => hstep b _ _ hb

/-- The vectorized kernels end in sums of sums. -/
theorem dotRowFast_nest (row x : ℕ → ℕ) (cols : ℕ) : 2 ≤ dotRowFast nestArith row x cols := by
  simp only [dotRowFast, fold16, nestArith_add]
  omega

theorem dotRowFastQ80_nest (row : ℕ → UInt8) (x : ℕ → ℕ) (cols : ℕ) :
    2 ≤ dotRowFastQ80 nestArith row x cols := by
  simp only [dotRowFastQ80, fold16, nestArith_add]
  omega

theorem dotRowFastDequant_nest (f : Fmt) (row : ℕ → UInt8) (x : ℕ → ℕ) {cols : ℕ}
    (hc : 0 < cols) : 2 ≤ dotRowFastDequant nestArith f row x cols := by
  obtain ⟨n, hn⟩ : ∃ n, (cols - 0 + 256 - 1) / 256 = n + 1 := ⟨(cols - 1) / 256, by omega⟩
  rw [dotRowFastDequant, iterStep, hn, iter_succ]
  dsimp only
  rw [nestArith_add]
  have := dotRowFast_nest (dequantChunk nestArith f row (0 + n * 256)
    (chunkLen cols (0 + n * 256)) fun _ => nestArith.zero) (off x (0 + n * 256))
    (chunkLen cols (0 + n * 256))
  omega

theorem dotI8kAny_nest {f : Fmt} (hf : f = .Q4_K ∨ f = .Q6_K) (row : ℕ → UInt8)
    (xk : ℕ → BlkQ8K ℕ) (cols : ℕ) : 2 ≤ dotI8kAny nestArith f row xk cols := by
  rcases hf with rfl | rfl
  · simp only [dotI8kAny, dotI8kQ4K, fold4, nestArith_add]
    omega
  · simp only [dotI8kAny, dotI8kQ6K, fold4, nestArith_add]
    omega

/-! ## The exact condition -/

/-- The engine runs the fast kernels, or both sides run the canonical kernel of the format, or rows
are empty and both sides give zero. -/
def SameKernel (o : EngineOpts) (f : Fmt) (NE : ℕ) : Prop :=
  (o.useRuntime ∧ o.fastKernels) ∨
    (¬ o.int8Dots ∧ ¬ o.fastKernels ∧ (f = .Q4_K ∨ f = .Q6_K ∨ f = .Q8_0)) ∨
    NE = 0 ∧ ¬ o.int8Dots ∧ f ≠ .F32 ∧ f ≠ .Q8_0

section
variable {F : Type} (A : Arith F) (m : TileMem F) {M : HeadMat} {o : EngineOpts}
  {mode : HeadDotMode}

theorem dotRowAny_zero (f : Fmt) (row : ℕ → UInt8) (x : ℕ → F) :
    dotRowAny A f row x 0 = A.zero := by
  cases f <;> simp [dotRowAny, dotRowF32, dotRowQ80, dotRowQ50, dotRowQ4K, dotRowQ6K, dotRowIq2,
    dotRowIq3]

theorem dotExact_eq_engineDot (hload : loadHeadDot o M.fmt = some mode)
    (h : SameKernel o M.fmt M.NE) (j : ℕ) (x : Loc) : M.dotExact A m j x mode =
      engineDot A o M.fmt (M.row m j) (m.col x) (m.xqk x M.NE) M.NE := by
  obtain ⟨-, rfl⟩ := loadHeadDot_eq_some hload
  obtain ⟨rt, fast, int8⟩ := o
  rcases h with ⟨hrt, hfast⟩ | ⟨hint8, hfast, hf⟩ | ⟨hNE, hint8, hf⟩
  · obtain rfl : rt = true := hrt
    obtain rfl : fast = true := hfast
    cases int8 with
    | false =>
      simp only [HeadMat.dotExact, engineDot]
      cases M.fmt <;> rfl
    | true => rfl
  · obtain rfl : int8 = false := by simpa using hint8
    obtain rfl : fast = false := by simpa using hfast
    simp only [HeadMat.dotExact, engineDot]
    rcases hf with hf | hf | hf <;> rw [hf] <;> simp [dotRowAny]
  · obtain rfl : int8 = false := by simpa using hint8
    have hdeq (row : ℕ → UInt8) : dotRowFastDequant A M.fmt row (m.col x) 0 = A.zero := by
      simp [dotRowFastDequant, iterStep]
    have hany (row : ℕ → UInt8) := dotRowAny_zero A M.fmt row (m.col x)
    obtain ⟨f, w, rb, V, NE⟩ := M
    obtain rfl : NE = 0 := hNE
    cases f <;> cases rt <;> cases fast <;> simp_all [HeadMat.dotExact, engineDot, dotRowAny]

theorem dotExact_nest {m : TileMem ℕ} (hNE : blkElems M.fmt ∣ M.NE)
    (hload : loadHeadDot o M.fmt = some mode) (h : ¬ SameKernel o M.fmt M.NE) (j : ℕ) (x : Loc) :
    engineDot nestArith o M.fmt (M.row m j) (m.col x) (m.xqk x M.NE) M.NE ≤ 1 ∧
      2 ≤ M.dotExact nestArith m j x mode := by
  obtain ⟨hi8, rfl⟩ := loadHeadDot_eq_some hload
  rw [SameKernel, not_or, not_or] at h
  obtain ⟨hfast, hcanon, hempty⟩ := h
  unfold engineDot
  rw [if_pos hfast]
  refine ⟨dotRowAny_nest M.fmt _ _ hNE, ?_⟩
  -- the vectorized kernel of a row that is not empty
  have hdeq (hf : M.fmt ≠ .F32 ∧ M.fmt ≠ .Q8_0) (hi : ¬ o.int8Dots) :
      2 ≤ dotRowFastDequant nestArith M.fmt (M.row m j) (m.col x) M.NE := by
    apply dotRowFastDequant_nest
    exact Nat.pos_of_ne_zero fun h0 => hempty ⟨h0, hi, hf⟩
  by_cases hi : o.int8Dots
  · rw [if_pos hi]
    exact dotI8kAny_nest (hi8 hi) _ _ _
  · rw [if_neg hi]
    by_cases hf : o.fastKernels
    · rw [if_pos hf, HeadMat.dotExact]
      cases hfmt : M.fmt with
      | F32 => exact dotRowFast_nest _ _ _
      | Q8_0 => exact dotRowFastQ80_nest _ _ _
      | _ =>
        have hlt := hdeq (by simp [hfmt]) hi
        rw [hfmt] at hlt
        exact hlt
    · rw [if_neg hf, HeadMat.dotExact]
      cases hfmt : M.fmt with
      | F32 => exact dotRowFast_nest _ _ _
      | Q4_K | Q6_K | Q8_0 => exact absurd ⟨hi, hf, by simp [hfmt]⟩ hcanon
      | _ =>
        have hlt := hdeq (by simp [hfmt]) hi
        rw [hfmt] at hlt
        exact hlt

end

/-- For the rows of a tile of the head the certificate computes what the engine adds, whatever the
activation and the float operations are, exactly when both run the same kernel. -/
theorem headDot_eq_engine_iff {M : HeadMat} {t : TaskParams} {r0 : ℕ} (ht : HeadTile M t r0)
    (htile : DotTile t) (hrows : 0 < t.rows) {o : EngineOpts} {mode : HeadDotMode}
    (hload : loadHeadDot o M.fmt = some mode) (mcLegacy shadowEnabled : Bool)
    {spans : List RegSpan} (hspans : ∀ s ∈ spans, s.contains t.w = false)
    (byte : BytePtr → UInt8) :
    (∀ (F : Type) (A : Arith F) (m : TileMem F), m.byte = byte → ∀ y,
      execEngine A o mcLegacy shadowEnabled spans m t y =
        addTile A t (fun r p => M.dotExact A m (r0 + r) (t.inCol p) mode) y) ↔
      SameKernel o M.fmt M.NE := by
  constructor
  · intro h
    by_contra hne
    let m : TileMem ℕ := ⟨byte, fun _ => 0, fun _ => ⟨0, 0, fun _ => 0⟩,
      fun _ => ⟨0, fun _ => 0, fun _ => 0⟩, fun _ => 0⟩
    have hNE : blkElems M.fmt ∣ M.NE := by rw [← ht.fmt, ← ht.cols]; exact htile.cols
    obtain ⟨hengine, hcert⟩ := dotExact_nest (m := m) hNE hload hne (r0 + 0) (t.inCol 0)
    -- the first output tells the two apart
    have heq := congrFun (h ℕ nestArith m rfl fun _ => 0) (t.out 0 0)
    rw [execEngine_eq nestArith m ht hload mcLegacy shadowEnabled hspans,
      addTile_out nestArith htile _ _ hrows htile.nx_pos,
      addTile_out nestArith htile _ _ hrows htile.nx_pos, nestArith_add, nestArith_add] at heq
    omega
  · intro h F A m _ y
    rw [execEngine_eq A m ht hload mcLegacy shadowEnabled hspans]
    congr 1
    funext r p
    exact (dotExact_eq_engineDot A m hload h (r0 + r) (t.inCol p)).symm

/-- One tile of a Q6_K head, in the runtime with the fast kernels and int8 dots. -/
theorem headDot_eq_engine_iff_q6 :
    let M : HeadMat := ⟨.Q6_K, ⟨1, 0⟩, 210, 8, 256⟩
    let t : TaskParams := { fmt := .Q6_K, w := ⟨1, 420⟩, rows := 4, cols := 256 }
    (∀ (F : Type) (A : Arith F) (m : TileMem F), m.byte = (fun p => UInt8.ofNat p.byte) → ∀ y,
      execEngine A ⟨true, true, true⟩ false false [] m t y =
        addTile A t (fun r p => M.dotExact A m (2 + r) (t.inCol p) .I8K) y) ↔
      SameKernel ⟨true, true, true⟩ .Q6_K 256 := by
  intro M t
  have ht : HeadTile M t 2 := ⟨rfl, rfl, rfl, by decide, by decide⟩
  have htile : DotTile t := ⟨by decide, by decide, by decide, by decide, by decide⟩
  exact headDot_eq_engine_iff ht htile (by decide) (by decide) false false
    (List.forall_mem_nil _) _

/-- With `run_serial`, fast kernels selected and no int8 dots, the certificate of a Q4_K head does
not compute what the engine adds. -/
theorem headDot_serial_differs :
    let M : HeadMat := ⟨.Q4_K, ⟨1, 0⟩, 144, 8, 256⟩
    let t : TaskParams := { fmt := .Q4_K, w := ⟨1, 0⟩, rows := 1, cols := 256 }
    let o : EngineOpts := ⟨false, true, false⟩
    loadHeadDot o M.fmt = some .FAST_DEQ ∧
      ¬ ∀ (F : Type) (A : Arith F) (m : TileMem F), m.byte = (fun _ => 0) → ∀ y,
        execEngine A o false false [] m t y =
          addTile A t (fun r p => M.dotExact A m (0 + r) (t.inCol p) .FAST_DEQ) y := by
  intro M t o
  have hload : loadHeadDot o M.fmt = some .FAST_DEQ := by decide
  refine ⟨hload, fun h => ?_⟩
  have ht : HeadTile M t 0 := ⟨rfl, rfl, rfl, by decide, by decide⟩
  have htile : DotTile t := ⟨by decide, by decide, by decide, by decide, by decide⟩
  let m : TileMem ℕ := ⟨fun _ => 0, fun _ => 0, fun _ => ⟨0, 0, fun _ => 0⟩,
    fun _ => ⟨0, fun _ => 0, fun _ => 0⟩, fun _ => 0⟩
  have hne : ¬ SameKernel o M.fmt M.NE := by
    simp [SameKernel, o, M]
  obtain ⟨hengine, hcert⟩ := dotExact_nest (m := m) (by decide) hload hne (0 + 0) (t.inCol 0)
  have heq := congrFun (h ℕ nestArith m rfl fun _ => 0) (t.out 0 0)
  rw [execEngine_eq nestArith m ht hload false false (List.forall_mem_nil _),
    addTile_out nestArith htile _ _ (by decide) (by decide),
    addTile_out nestArith htile _ _ (by decide) (by decide), nestArith_add, nestArith_add] at heq
  omega

end FastLlm
